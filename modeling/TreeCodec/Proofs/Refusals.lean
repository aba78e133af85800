import TreeCodec.Codec

/-!
# What the parts of a reading refuse

Zeros, keys, variants, byte strings and scalars are made without looking at the depth, at
hooks or at what a conversion noted. So they end in none of the errors that come of these
(`Error.isLocal`):

* `Catalogue.localResult_zero`, `Catalogue.localResult_zeroField`: zeros;
* `Catalogue.localResult_keyOf`: keys of maps;
* `Codec.localResult_decodeVariant`, `Codec.localResult_decodeBytes`,
  `Scalar.localResult_decode`: trees that are no containers.
-/

namespace TreeCodec

/-- Whether a type and a tree account for an error by themselves: a limit, a hook or a
report is not needed. -/
def Error.isLocal : Error → Bool
  | .mismatch _ => true
  | .misfit _ => true
  | .unknownVariant _ _ => true
  | .noForm _ => true
  | .base64 _ => true
  | .unbuilt _ => true
  | _ => false

/-- A result whose error, if it is one, is local. -/
def LocalResult {α : Type} (r : Except Error α) : Prop := ∀ e, r = .error e → e.isLocal = true

namespace LocalResult

variable {α β : Type}

theorem ok (v : α) : LocalResult (.ok v : Except Error α) := fun _ h => nomatch h

theorem error {e : Error} (h : e.isLocal = true) : LocalResult (.error e : Except Error α) :=
  fun _ he => by cases he; exact h

/-- A result keeps its error when its value is changed. -/
theorem map {r : Except Error α} (f : α → β) (h : LocalResult r) : LocalResult (r.map f) := by
  cases r with
  | ok v => exact ok (f v)
  | error e => exact error (h e rfl)

end LocalResult

namespace Catalogue

variable (c : Catalogue)

/-! ## Zeros -/

section Zero

variable {declared : String → Except Error Datum}

theorem localResult_zerosWith (ts : List Ty) (h : ∀ t ∈ ts, LocalResult (c.zeroWith declared t)) :
    LocalResult (c.zerosWith declared ts) := by
  induction ts with
  | nil => exact .ok _
  | cons t ts ih =>
    have ht := h t List.mem_cons_self
    rw [zerosWith]
    split
    · rename_i e he
      exact .error (ht e he)
    · exact (ih fun u hu => h u (List.mem_cons_of_mem _ hu)).map _

variable (hd : ∀ name, LocalResult (declared name))
include hd

theorem localResult_zeroWith (ty : Ty) : LocalResult (c.zeroWith declared ty) := by
  rw [zeroWith.eq_def]
  split
  · exact .ok _
  · split
    · split
      · exact .error rfl
      · exact (localResult_zeroWith _).map _
    · split
      · rename_i e he
        exact .error (localResult_zeroWith _ e he)
      · split
        · exact .error rfl
        · exact .ok _
    · exact (localResult_zerosWith c _ fun t _ => localResult_zeroWith t).map _
    · exact hd _
    · exact .error rfl
termination_by ty
decreasing_by all_goals subst ty; decreasing_tactic

theorem localResult_zeroFieldWith (f : Field) : LocalResult (c.zeroFieldWith declared f) := by
  rw [zeroFieldWith]
  split
  · exact .ok _
  · exact localResult_zeroWith c hd f.ty

theorem localResult_zeroFieldsWith (fs : List Field) :
    LocalResult (c.zeroFieldsWith declared fs) := by
  induction fs with
  | nil => exact .ok _
  | cons f fs ih =>
    have hf := localResult_zeroFieldWith c hd f
    rw [zeroFieldsWith]
    split
    · rename_i e he
      exact .error (hf e he)
    · exact ih.map _

end Zero

theorem localResult_zeroDeclared (depth : Nat) (name : String) :
    LocalResult (c.zeroDeclared depth name) := by
  induction depth generalizing name with
  | zero => exact .error rfl
  | succ depth ih =>
    rw [zeroDeclared]
    split
    · exact (localResult_zeroFieldsWith c ih _).map _
    · exact (localResult_zeroFieldsWith c ih _).map _
    · exact (localResult_zeroWith c ih _).map _
    · exact .ok _
    · exact .error rfl
    · exact .error rfl

theorem localResult_zero (ty : Ty) : LocalResult (c.zero ty) :=
  localResult_zeroWith c (localResult_zeroDeclared c _) ty

theorem localResult_zeroField (f : Field) : LocalResult (c.zeroField f) :=
  localResult_zeroFieldWith c (localResult_zeroDeclared c _) f

/-! ## Keys -/

theorem localResult_keyWith (key : String) {declared : String → Except Error Datum}
    (hd : ∀ name, LocalResult (declared name)) (ty : Ty) :
    LocalResult (keyWith key declared ty) := by
  fun_induction keyWith key declared ty with
  | case1 => exact .ok _
  | case2 _ ih => exact ih.map _
  | case3 _ ih => exact ih.map _
  | case4 _ ih => exact ih.map _
  | case5 _ ih => exact ih.map _
  | case6 => exact .error rfl
  | case7 name => exact hd name
  | case8 => exact .error rfl

theorem localResult_keyDeclared (key : String) (depth : Nat) (name : String) :
    LocalResult (c.keyDeclared key depth name) := by
  induction depth generalizing name with
  | zero => exact .error rfl
  | succ depth ih =>
    rw [keyDeclared]
    split
    · exact (localResult_keyWith key ih _).map _
    · exact .error rfl

theorem localResult_keyOf (ty : Ty) (key : String) : LocalResult (c.keyOf ty key) :=
  localResult_keyWith key (localResult_keyDeclared c key _) ty

end Catalogue

/-! ## Trees that are no containers -/

namespace Codec

theorem localResult_decodeVariant (ty : Ty) (vs : List Variant) (x : Tree) :
    LocalResult (decodeVariant ty vs x) := by
  cases x with
  | string s =>
    rw [decodeVariant]
    split
    · split
      · exact .ok _
      · exact .error rfl
    · exact .error rfl
  | _ => exact .error rfl

theorem localResult_decodeBytes (x : Tree) : LocalResult (decodeBytes x) := by
  cases x with
  | string s =>
    rw [decodeBytes]
    split
    · exact .ok _
    · exact .error rfl
  | _ => exact .error rfl

theorem localResult_wrapNonZero (k : IntTy) (d : Datum) : LocalResult (wrapNonZero k d) := by
  rw [wrapNonZero.eq_def]
  split
  · exact .error rfl
  · exact .ok _

end Codec

namespace Scalar

theorem localResult_decodeString (ty : Ty) (s : String) : LocalResult (decodeString ty s) := by
  rw [decodeString.eq_def]
  split
  · exact .ok _
  · exact .error rfl
  · exact .ok _

theorem localResult_decodeInt (ty : Ty) (n : Int) : LocalResult (decodeInt ty n) := by
  rw [decodeInt.eq_def]
  split
  · split
    · exact .ok _
    · exact .error rfl
  · exact .error rfl

theorem localResult_decodeFloat (ty : Ty) (x : Binary64) : LocalResult (decodeFloat ty x) := by
  rw [decodeFloat.eq_def]
  split <;> exact .ok _

theorem localResult_wholeFloat (ty : Ty) (x : Binary64) : LocalResult (wholeFloat ty x) := by
  rw [wholeFloat]
  split
  · split
    · exact .ok _
    · exact .error rfl
  · exact .error rfl

theorem localResult_decode (ty : Ty) (x : Tree) : LocalResult (decode ty x) := by
  rw [decode]
  split
  · exact .error rfl
  · split
    · exact .error rfl
    · split
      · split
        · exact localResult_decodeString _ _
        · exact .ok _
        · exact localResult_decodeFloat _ _
        · exact localResult_decodeInt _ _
        · split
          · exact localResult_decodeInt _ _
          · rename_i e he
            exact .error (localResult_wholeFloat _ _ e he)
        · exact localResult_decodeFloat _ _
        · exact .error rfl
      · exact .error rfl

end Scalar

end TreeCodec
