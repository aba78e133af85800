import TreeCodec.Proofs.Origins
import TreeCodec.Proofs.Rounding

/-!
# Narrowing

A float that is read into the narrow format is rounded to it. It is never refused: a number
beyond the format becomes an infinity, as does one that rounding carries beyond it.

* `Codec.ReadAs.float32_eq`: what is read as a narrow float, at whatever depth, is the
  rounded one;
* `finite_float_is_narrowed`: what the rounded one is, for every finite float, and that it is
  what is read wherever the float stands in the tree;
* `large_float_becomes_infinite`: a finite float is read as an infinite one.
-/

namespace TreeCodec

/-- From half a unit beyond the largest narrow float on, rounding gives an infinity. -/
theorem Binary.convert_eq_infinity {x : Binary64} (finite : x.isFinite = true)
    (beyond : 2 ^ 128 - 2 ^ 103 ≤ |x.value|) : (x.convert : Binary32) = .infinity x.negative := by
  have round : Rounds x.negative x.value (x.convert : Binary32) := rounds_convert (by decide) finite
  refine round.infinite (Bool.eq_false_iff.mpr fun kept => ?_)
  have below := round.finite.mp kept
  rw [overflow_single] at below
  exact absurd below (not_lt.mpr beyond)

namespace Codec

variable {cx : Codec} {x : Binary64}

/-- A narrow float is what the float of the tree is rounded to, wherever it was read. -/
theorem ReadAs.float32_eq {d : Datum} (h : cx.ReadAs .float32 (.float x) d)
    (hook : cx.registry.decoder? .float32 = none) : d = .float32 x.convert := by
  obtain ⟨depth, s, read | ⟨o, same, -⟩⟩ := h.layer hook (Tree.float_ne_null x)
  · exact (Except.ok.inj (Yields.of_ofExcept read)).symm
  · cases same

/-- A float is read as a narrow one at every limit. -/
theorem fromTree_float32 (hook : cx.registry.decoder? .float32 = none) (deep : 1 ≤ cx.maxDepth)
    (strict : Bool) :
    cx.fromTree strict .float32 (.float x) = (.ok (.float32 x.convert) : Except Error Datum) := by
  obtain ⟨depth, limit⟩ := Nat.exists_eq_add_of_le' deep
  have layer : (decoder cx cx.maxDepth).tree (.root strict) .float32 (.float x) =
      (pure (.float32 x.convert) : StateT Audit (Except Error) Datum) := by
    rw [limit, decoder_succ]
    exact decodeStep_hookless hook (Tree.float_ne_null x) (decoder cx depth) (.root strict)
  rw [fromTree, layer]
  rfl

/-- What is read from a tree, or from an object, is read at some place. -/
theorem readAs_of_conversion {strict : Bool} {ty : Ty} {t : Tree} {d : Datum}
    (h : cx.fromTree strict ty t = (.ok d : Except Error Datum) ∨
      ∃ o, t = .object o ∧ cx.fromObject strict ty o = (.ok d : Except Error Datum)) :
    cx.ReadAs ty t d := by
  refine ⟨cx.maxDepth, .root strict, h.imp yields_of_build ?_⟩
  rintro ⟨o, rfl, read⟩
  rw [fromObject] at read
  split at read
  · exact ⟨o, rfl, yields_of_build read⟩
  · cases read

end Codec

/-- A finite float is rounded to the narrow format wherever it is read into it: to the nearest
of its numbers below a bound, and from the bound on to the infinity of the same sign. Nothing is
refused for being out of range. -/
theorem finite_float_is_narrowed (cx : Codec) (hook : cx.registry.decoder? .float32 = none)
    {x : Binary64} (finite : x.isFinite = true) :
    ∃ y : Binary32,
      (y.isFinite = true ↔ |x.value| < 2 ^ 128 - 2 ^ 103) ∧
      (y.isFinite = true →
        ∀ z : Binary32, z.isFinite = true → |y.value - x.value| ≤ |z.value - x.value|) ∧
      (y.isFinite = false → y = .infinity x.negative) ∧
      (∀ strict, 1 ≤ cx.maxDepth →
        cx.fromTree strict .float32 (.float x) = (.ok (.float32 y) : Except Error Datum)) ∧
      ∀ strict ty t d b,
        (cx.fromTree strict ty t = (.ok d : Except Error Datum) ∨
          ∃ o, t = .object o ∧ cx.fromObject strict ty o = (.ok d : Except Error Datum)) →
        cx.Origin ty t d .float32 (.float x) b → b = .float32 y := by
  have round : Binary.Rounds x.negative x.value (x.convert : Binary32) :=
    Binary.rounds_convert (by decide) finite
  refine ⟨x.convert, Binary.overflow_single ▸ round.finite, round.nearest, round.infinite,
    fun strict deep => Codec.fromTree_float32 hook deep strict, fun strict ty t d b read part => ?_⟩
  exact ((Codec.readAs_of_conversion read).origin part (Tree.float_ne_null x)).float32_eq hook

/-- Half a unit beyond the largest narrow float, in a list in a map, rounds up to infinity. -/
theorem finite_float_is_narrowed_middle :
    let cx := Codec.route
    let x : Binary64 := ⟨false, ⟨1150, by decide⟩, ⟨2 ^ 52 - 2 ^ 28, by decide⟩⟩
    let ty : Ty := .map .ordered .string (.list .float32)
    let t : Tree := .object [("far", .array [.float (.zero true), .float x])]
    let last : Datum := .float32 (.infinity false)
    let d : Datum := .map [(.text "far", .seq [.float32 (.zero true), last])]
    cx.registry.decoder? .float32 = none ∧ x.isFinite = true ∧ x.value = 2 ^ 128 - 2 ^ 103 ∧
    cx.fromTree true ty t = (.ok d : Except Error Datum) ∧
    cx.Origin ty t d .float32 (.float x) last ∧
    ∃ y : Binary32, last = .float32 y ∧ y = .infinity x.negative ∧
      cx.fromTree true .float32 (.float x) = (.ok (.float32 y) : Except Error Datum) := by
  intro cx x ty t last d
  have value : x.value = 2 ^ 128 - 2 ^ 103 := by
    norm_num [x, Binary.value, FloatFormat.bias, FloatFormat.fractionCount, FloatFormat.double]
  have far : (x.convert : Binary32) = .infinity false :=
    Binary.convert_eq_infinity rfl (by rw [value]; exact le_abs_self _)
  have read : cx.fromTree true ty t = (.ok d : Except Error Datum) := by
    simp only [d, last, ← far]
    rfl
  have part : cx.Origin ty t d .float32 (.float x) last :=
    .value rfl (i := 0) rfl rfl (.member (i := 1) rfl (.list rfl _) rfl rfl rfl (.here ..))
  obtain ⟨y, bound, -, infinite, own, everywhere⟩ := finite_float_is_narrowed cx rfl (x := x) rfl
  have beyond : y.isFinite = false := by
    rw [Bool.eq_false_iff, ne_eq, bound, value]
    norm_num
  exact ⟨rfl, rfl, value, read, part, y, everywhere true ty t d last (.inl read) part,
    infinite beyond, own true (by decide)⟩

/-- The first float beyond the narrow format is finite and is read as an infinity, however deep
the codec goes. -/
theorem large_float_becomes_infinite :
    let x : Binary64 := ⟨false, ⟨1151, by decide⟩, ⟨0, by decide⟩⟩
    let y : Binary32 := .infinity false
    x.isFinite = true ∧ x.value = 2 ^ 128 ∧ y.isFinite = false ∧
    ∀ maxDepth, 1 ≤ maxDepth → ∀ strict,
      let cx : Codec := ⟨.route, .initial, maxDepth⟩
      cx.fromTree strict .float32 (.float x) = (.ok (.float32 y) : Except Error Datum) := by
  intro x y
  have value : x.value = 2 ^ 128 := by
    norm_num [x, Binary.value, FloatFormat.bias, FloatFormat.double]
  refine ⟨rfl, value, rfl, fun maxDepth deep strict => ?_⟩
  show Codec.fromTree ⟨.route, .initial, maxDepth⟩ strict .float32 (.float x) = _
  rw [Codec.fromTree_float32 rfl deep strict, Binary.convert_eq_infinity (x := x) rfl]
  rw [value]
  norm_num

end TreeCodec
