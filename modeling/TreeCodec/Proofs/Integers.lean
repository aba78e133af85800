import Mathlib.Algebra.Order.Ring.Rat
import Mathlib.Tactic.FieldSimp
import Mathlib.Tactic.Ring
import TreeCodec.Proofs.FieldCaches
import TreeCodec.Proofs.Lossless
import TreeCodec.Proofs.Wrappers

/-!
# Integers

An integer keeps its value on every way through a tree, or else the conversion fails. What a
float says as an integer goes by the number that its fields denote (`Binary.value`), of which
the model's exact arithmetic says just whether it is whole (`Binary.toInt?_eq_some_iff`).

* `Codec.fromTree_int`: an integer is read by the families and the ranges alone;
* `Scalar.denotes_of_decode`, `integers_are_unaltered`: what is read is what the tree denotes,
  and what is written denotes what it was written of;
* `Scalar.decode_float`, `fitting_number_is_read`: what fits is read, but for floats beyond 128
  bits with a sign, which no type reads, not even the one that has such integers
  (`wide_float_is_refused`).
-/

namespace TreeCodec

/-! ## The number of a float -/

namespace Binary

variable {F : FloatFormat} {x : Binary F}

/-- The number that the fields of a finite datum denote: the fraction, behind a leading one
unless the exponent field is zero, at the exponent and with the sign. -/
def value (x : Binary F) : ℚ :=
  let fraction : ℚ := x.fraction.val / F.fractionCount
  let magnitude : ℚ :=
    if x.exponent.val = 0 then fraction * 2 ^ (1 - (F.bias : ℤ))
    else (1 + fraction) * 2 ^ ((x.exponent.val : ℤ) - F.bias)
  if x.negative then -magnitude else magnitude

theorem fractionCount_cast (F : FloatFormat) :
    (F.fractionCount : ℚ) = 2 ^ (F.fractionBits : ℤ) := by
  rw [zpow_natCast, FloatFormat.fractionCount]
  exact Nat.cast_pow 2 F.fractionBits

/-- The significand at its scale, with the sign, is the number. -/
theorem value_eq (x : Binary F) :
    x.value =
      if x.negative then -((x.significand : ℚ) * 2 ^ x.scale) else x.significand * 2 ^ x.scale := by
  have two : (2 : ℚ) ≠ 0 := two_ne_zero
  have magnitude : (if x.exponent.val = 0 then
        (x.fraction.val / F.fractionCount : ℚ) * 2 ^ (1 - (F.bias : ℤ))
      else (1 + x.fraction.val / F.fractionCount : ℚ) * 2 ^ ((x.exponent.val : ℤ) - F.bias)) =
      x.significand * 2 ^ x.scale := by
    rw [fractionCount_cast, significand, scale, FloatFormat.minScale]
    split
    · rename_i least
      have finest : 1 - (F.bias : ℤ) - F.fractionBits + (((x.exponent.val : ℤ) - 1).toNat : ℤ) =
          1 - F.bias - F.fractionBits := by omega
      rw [finest, zpow_sub₀ two _ (F.fractionBits : ℤ)]
      ring
    · have place : 1 - (F.bias : ℤ) - F.fractionBits + (((x.exponent.val : ℤ) - 1).toNat : ℤ) =
          x.exponent.val - F.bias - F.fractionBits := by omega
      have weight : (2 : ℚ) ^ (F.fractionBits : ℤ) ≠ 0 := zpow_ne_zero _ two
      rw [place, zpow_sub₀ two _ (F.fractionBits : ℤ), Nat.cast_add, fractionCount_cast]
      field_simp
  simp only [value, magnitude]

/-- Scaling gives a natural number just where the scaled number is one. -/
theorem scaledNat?_eq_some_iff {m n : Nat} {q : ℤ} :
    scaledNat? m q = some n ↔ (m : ℚ) * 2 ^ q = n := by
  cases q with
  | ofNat q =>
    rw [scaledNat?, Option.some_inj, Int.ofNat_eq_natCast, zpow_natCast]
    exact_mod_cast Iff.rfl
  | negSucc q =>
    have unit : (2 : ℚ) ^ (q + 1) ≠ 0 := pow_ne_zero _ two_ne_zero
    have scaled : (m : ℚ) * 2 ^ Int.negSucc q = n ↔ m = n * Nat.pow 2 (q + 1) := by
      rw [zpow_negSucc, ← div_eq_mul_inv, div_eq_iff unit]
      exact_mod_cast Iff.rfl
    rw [scaled, scaledNat?]
    constructor
    · intro h
      split at h <;> cases h
      exact (Nat.div_mul_cancel (Nat.dvd_of_mod_eq_zero ‹_›)).symm
    · rintro rfl
      rw [if_pos (Nat.mul_mod_left ..)]
      exact congrArg some (Nat.mul_div_cancel n (Nat.two_pow_pos (q + 1)))

/-- A datum denotes an integer just where it is finite and its number is the integer. -/
theorem toInt?_eq_some_iff {n : Int} : x.toInt? = some n ↔ x.isFinite = true ∧ x.value = n := by
  have magnitude : 0 ≤ (x.significand : ℚ) * 2 ^ x.scale :=
    mul_nonneg (Nat.cast_nonneg _) (zpow_nonneg zero_le_two _)
  have exact : x.toInt? = some n ↔ x.isFinite = true ∧ ∃ m : Nat,
      (x.significand : ℚ) * 2 ^ x.scale = m ∧ (if x.negative then -(m : Int) else m) = n := by
    simp only [← scaledNat?_eq_some_iff, toInt?]
    cases x.isFinite <;> cases scaledNat? x.significand x.scale <;> simp
  rw [exact, value_eq, and_congr_right_iff]
  intro _
  cases x.negative with
  | false =>
    simp only [Bool.false_eq_true, if_false]
    constructor
    · rintro ⟨m, hm, rfl⟩
      exact hm
    · intro whole
      have sign : 0 ≤ n := by rwa [whole, Int.cast_nonneg_iff] at magnitude
      obtain ⟨m, rfl⟩ := Int.eq_ofNat_of_zero_le sign
      exact ⟨m, whole, rfl⟩
  | true =>
    simp only [if_true]
    constructor
    · rintro ⟨m, hm, rfl⟩
      rw [hm, Int.cast_neg, Int.cast_natCast]
    · intro whole
      have opposite : (x.significand : ℚ) * 2 ^ x.scale = (-n : Int) := by
        rw [Int.cast_neg, ← whole, neg_neg]
      have sign : 0 ≤ -n := by rwa [opposite, Int.cast_nonneg_iff] at magnitude
      obtain ⟨m, hm⟩ := Int.eq_ofNat_of_zero_le sign
      exact ⟨m, by rw [opposite, hm, Int.cast_natCast], by omega⟩

/-- A zero of either sign is zero. -/
theorem value_zero (negative : Bool) : (zero negative : Binary F).value = 0 := by
  have exponent : (zero negative : Binary F).exponent.val = 0 := by simp [zero, ofCode]
  have fraction : (zero negative : Binary F).fraction.val = 0 := by simp [zero, ofCode]
  simp [value, exponent, fraction]

end Binary

/-! ## Trees -/

namespace Tree

/-- The integer that a tree says: that of an integer, and that of a finite float whose number is
one. Nothing else says any. -/
inductive Denotes : Tree → Int → Prop
  | int (m : Int64) : Denotes (.int m) m.toInt
  | float {x : Binary64} {n : Int} (finite : x.isFinite = true) (whole : x.value = n) :
    Denotes (.float x) n

theorem int_ne_null (m : Int64) : int m ≠ null := fun h => by cases h

theorem float_ne_null (x : Binary64) : float x ≠ null := fun h => by cases h

end Tree

/-! ## Scalars -/

namespace Scalar

variable {k : IntTy} {d : Datum} {t : Tree} {n : Int}

/-- An integer is what it was, or out of range. -/
theorem of_decodeInt (h : decodeInt (.int k) n = .ok d) : d = .int n ∧ k.contains n = true := by
  rw [decodeInt] at h
  split at h <;> cases h
  exact ⟨rfl, ‹_›⟩

/-- A float is read as the integer that it denotes, by way of 128 bits with a sign. -/
theorem decode_float {x : Binary64} (whole : x.toInt? = some n) :
    decode (.int k) (.float x) =
      if IntTy.int128.contains n then decodeInt (.int k) n
      else .error (.misfit (.float x (.int k))) := by
  have accepts : Family.float.accepts .integer (.float x) = true := by
    simp [Family.accepts, Binary.isIntegral, whole]
  simp only [decode, Ty.family?, Tree.family?, accepts, if_true, wholeFloat, whole]
  cases IntTy.int128.contains n <;> rfl

/-- What is read as an integer is what the tree denotes, in the range of the type. -/
theorem denotes_of_decode (h : decode (.int k) t = .ok d) :
    ∃ n, d = .int n ∧ k.contains n = true ∧ t.Denotes n := by
  cases t with
  | int m =>
    obtain ⟨rfl, range⟩ := of_decodeInt h
    exact ⟨_, rfl, range, .int m⟩
  | float x =>
    rcases whole : x.toInt? with _ | n
    · simp [decode, Ty.family?, Tree.family?, Family.accepts, Binary.isIntegral, whole] at h
    · rw [decode_float whole] at h
      split at h
      · obtain ⟨rfl, range⟩ := of_decodeInt h
        obtain ⟨finite, value⟩ := Binary.toInt?_eq_some_iff.mp whole
        exact ⟨n, rfl, range, .float finite value⟩
      · cases h
  | _ => cases h

end Scalar

/-! ## Conversions -/

namespace Codec

variable {cx : Codec} {k : IntTy} {strict : Bool} {t : Tree}

/-- An integer is read by the families and the ranges alone. -/
theorem fromTree_int (hook : cx.registry.decoder? (.int k) = none) (deep : 1 ≤ cx.maxDepth)
    (present : t ≠ .null) :
    cx.fromTree strict (.int k) t = (Scalar.decode (.int k) t : Except Error Datum) := by
  obtain ⟨depth, limit⟩ := Nat.exists_eq_add_of_le' deep
  have layer : (decoder cx cx.maxDepth).tree (.root strict) (.int k) t =
      (MonadExcept.ofExcept (Scalar.decode (.int k) t) : StateT Audit (Except Error) Datum) := by
    rw [limit, decoder_succ]
    exact decodeStep_hookless hook present (decoder cx depth) (.root strict)
  rw [fromTree, layer]
  rcases Scalar.decode (.int k) t with e | d <;> rfl

/-- A datum is read at one level of depth at least. -/
theorem deep_of_fromTree {ty : Ty} {d : Datum}
    (h : cx.fromTree strict ty t = (.ok d : Except Error Datum)) : 1 ≤ cx.maxDepth := by
  refine Nat.one_le_iff_ne_zero.mpr fun limit => ?_
  rw [fromTree, limit] at h
  cases h

/-- What is written of an integer is the integer. -/
theorem int_of_toTree {n : Int} (hook : cx.registry.encoder? (.int k) = none)
    (h : cx.toTree (.int k) (.int n) = (.ok t : Except Error Tree)) :
    ∃ m : Int64, t = .int m ∧ m.toInt = n := by
  have written := scalar_of_encode hook rfl h
  simp only [Scalar.encode, Scalar.encodeInt] at written
  split at written
  · rename_i fits
    cases written
    exact ⟨_, rfl, Scalar.toInt_of_contains fits⟩
  · split at written <;> cases written

/-- A way through a tree has an outcome, and what it reads, it reads from the tree that it
writes. -/
theorem transcode_ok (strict : Bool) (src dst : Ty) (d : Datum) : ∃ came : Transcript,
    cx.transcode strict src dst d = (.ok came : Except Error Transcript) ∧
    ∀ d', came.datum? = some (.ok d') → ∃ t,
      cx.toTree src d = (.ok t : Except Error Tree) ∧
      cx.fromTree strict dst t = (.ok d' : Except Error Datum) := by
  rw [transcode, attempt_eq]
  rcases (cx.toTree src d : Except Error Tree) with e | t
  · exact ⟨{ tree := .error e }, rfl, by simp⟩
  · show ∃ came : Transcript, (attempt (cx.fromTree strict dst t) >>= _ : Except Error _) = _ ∧ _
    rw [attempt_eq]
    rcases given : (cx.fromTree strict dst t : Except Error Datum) with e | d'
    · exact ⟨{ tree := .ok t, datum? := some (.error e) }, rfl, by simp⟩
    · refine ⟨{ tree := .ok t, datum? := some (.ok d'), back? := some (cx.toTree dst d') }, ?_, ?_⟩
      · show (attempt (cx.toTree dst d') >>= _ : Except Error Transcript) = _
        rw [attempt_eq]
        rfl
      · rintro _ ⟨⟩
        exact ⟨t, rfl, given⟩

end Codec

/-! ## What comes through -/

/-- Integers are not altered. What is read as an integer is what the tree denotes, in the range
of the type; what is written of an integer is the integer; and what comes of an integer on its
way through a tree into any integer type is the integer, or else nothing does. -/
theorem integers_are_unaltered (cx : Codec) {i j : IntTy}
    (writes : cx.registry.encoder? (.int i) = none) (reads : cx.registry.decoder? (.int j) = none) :
    (∀ strict t d, t ≠ .null → cx.fromTree strict (.int j) t = (.ok d : Except Error Datum) →
      ∃ n, d = .int n ∧ j.contains n = true ∧ t.Denotes n) ∧
    (∀ n t, cx.toTree (.int i) (.int n) = (.ok t : Except Error Tree) →
      ∃ m : Int64, t = .int m ∧ m.toInt = n) ∧
    ∀ strict n, ∃ came : Codec.Transcript,
      cx.transcode strict (.int i) (.int j) (.int n) = (.ok came : Except Error Codec.Transcript) ∧
      ∀ d, came.datum? = some (.ok d) → d = .int n := by
  have read strict t d (present : t ≠ .null)
      (h : cx.fromTree strict (.int j) t = (.ok d : Except Error Datum)) :
      Scalar.decode (.int j) t = .ok d :=
    (Codec.fromTree_int reads (Codec.deep_of_fromTree h) present).symm.trans h
  refine ⟨fun strict t d present h => Scalar.denotes_of_decode (read strict t d present h),
    fun n t => Codec.int_of_toTree writes, fun strict n => ?_⟩
  obtain ⟨came, outcome, through⟩ := cx.transcode_ok strict (.int i) (.int j) (.int n)
  refine ⟨came, outcome, fun d arrived => ?_⟩
  obtain ⟨t, written, given⟩ := through d arrived
  obtain ⟨m, rfl, rfl⟩ := Codec.int_of_toTree writes written
  exact (Scalar.of_decodeInt (read strict _ d (Tree.int_ne_null m) given)).1

/-- A whole float is read as a byte. A wide integer comes through into a byte as it is, or else
does not. -/
theorem integers_are_unaltered_byte :
    let cx := Codec.route
    let wide : IntTy := ⟨false, .w128⟩
    let three : Tree := .float (.ofInt 3)
    cx.registry.encoder? (.int wide) = none ∧ cx.registry.decoder? (.int .byte) = none ∧
    cx.fromTree true (.int .byte) three = (.ok (.int 3) : Except Error Datum) ∧
    (∃ n, Datum.int 3 = .int n ∧ IntTy.byte.contains n = true ∧ three.Denotes n) ∧
    ∃ came : Codec.Transcript,
      cx.transcode true (.int wide) (.int .byte) (.int 300) =
        (.ok came : Except Error Codec.Transcript) ∧
      ∀ d, came.datum? = some (.ok d) → d = .int 300 := by
  intro cx wide three
  have read : cx.fromTree true (.int .byte) three = (.ok (.int 3) : Except Error Datum) := rfl
  obtain ⟨given, -, through⟩ := integers_are_unaltered cx (i := wide) (j := .byte) rfl rfl
  exact ⟨rfl, rfl, read, given true three _ (Tree.float_ne_null _) read, through true 300⟩

/-- In the range of any type, the integers of 128 bits with a sign are those below a bound. -/
theorem IntTy.int128_contains_iff {k : IntTy} {n : Int} (range : k.contains n = true) :
    IntTy.int128.contains n = true ↔ n < 2 ^ 127 := by
  obtain ⟨signed, width⟩ := k
  cases signed <;> cases width <;>
    simp [IntTy.contains, IntTy.min, IntTy.max, IntTy.int128, IntWidth.bits] at range ⊢ <;> omega

/-- What fits an integer type is read, at any depth: integers as they are, and whole floats as
the integers that they denote, but for those from `2 ^ 127` on. -/
theorem fitting_number_is_read (cx : Codec) {k : IntTy}
    (hook : cx.registry.decoder? (.int k) = none) (deep : 1 ≤ cx.maxDepth) (strict : Bool) {n : Int}
    (range : k.contains n = true) :
    (IntTy.int64.contains n = true →
      cx.fromTree strict (.int k) (.int (.ofInt n)) = (.ok (.int n) : Except Error Datum)) ∧
    ∀ x : Binary64, x.isFinite = true → x.value = n →
      cx.fromTree strict (.int k) (.float x) =
        (if n < 2 ^ 127 then .ok (.int n) else .error (.misfit (.float x (.int k))) :
          Except Error Datum) := by
  have own : Scalar.decodeInt (.int k) n = .ok (.int n) := by rw [Scalar.decodeInt, if_pos range]
  refine ⟨fun fits => ?_, fun x finite value => ?_⟩
  · rw [Codec.fromTree_int hook deep (Tree.int_ne_null _)]
    show Scalar.decodeInt (.int k) (Int64.ofInt n).toInt = _
    rw [Scalar.toInt_of_contains fits, own]
  · rw [Codec.fromTree_int hook deep (Tree.float_ne_null x),
      Scalar.decode_float (Binary.toInt?_eq_some_iff.mpr ⟨finite, value⟩), own]
    simp only [IntTy.int128_contains_iff range]

/-- The negative zero is read as zero. -/
theorem fitting_number_is_read_zero :
    let cx := Codec.route
    let x : Binary64 := .zero true
    cx.registry.decoder? (.int .byte) = none ∧ 1 ≤ cx.maxDepth ∧ IntTy.byte.contains 0 = true ∧
    x.isFinite = true ∧ x.value = (0 : Int) ∧
    cx.fromTree true (.int .byte) (.float x) =
      (if (0 : Int) < 2 ^ 127 then .ok (.int 0) else .error (.misfit (.float x (.int .byte))) :
        Except Error Datum) := by
  intro cx x
  have value : x.value = (0 : Int) := (Binary.value_zero true).trans Int.cast_zero.symm
  exact ⟨rfl, by decide, rfl, rfl, value,
    (fitting_number_is_read cx rfl (by decide) true rfl).2 x rfl value⟩

/-- A float of `2 ^ 127` is refused as an unsigned integer of 128 bits, which has that number,
however deep the codec goes. -/
theorem wide_float_is_refused :
    let x : Binary64 := ⟨false, ⟨1150, by decide⟩, ⟨0, by decide⟩⟩
    let wide : IntTy := ⟨false, .w128⟩
    x.isFinite = true ∧ x.value = (2 ^ 127 : Int) ∧ wide.contains (2 ^ 127) = true ∧
    ∀ maxDepth, 1 ≤ maxDepth → ∀ strict,
      let cx : Codec := ⟨.route, .initial, maxDepth⟩
      cx.fromTree strict (.int wide) (.float x) =
        (.error (.misfit (.float x (.int wide))) : Except Error Datum) := by
  intro x wide
  have value : x.value = (2 ^ 127 : Int) := by
    norm_num [x, Binary.value, FloatFormat.bias, FloatFormat.double]
  refine ⟨rfl, value, by decide, fun maxDepth deep strict => ?_⟩
  have whole : x.toInt? = some (2 ^ 127) := Binary.toInt?_eq_some_iff.mpr ⟨rfl, value⟩
  show Codec.fromTree _ strict (.int wide) (.float x) = _
  rw [Codec.fromTree_int rfl deep (Tree.float_ne_null x), Scalar.decode_float whole]
  rfl

end TreeCodec
