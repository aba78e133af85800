import Mathlib.Algebra.Order.Field.Basic
import Mathlib.Tactic.Linarith
import Mathlib.Tactic.NormNum
import Mathlib.Data.Rat.Cast.Order
import TreeCodec.Proofs.Integers
import TreeCodec.Proofs.OmittedFields

/-!
# Rounding

A number is rounded to the nearest datum of a format, and beyond the format to an infinity.
Where that begins is half a unit beyond the largest finite datum (`FloatFormat.overflow`):
what is below rounds down to that datum, and the middle itself, by the rule for ties, up.

* `RoundsTo`, `Binary.roundsTo_shiftRound`: cutting off rounds to the nearest integer, and in
  the middle to the even one;
* `Binary.cutOff_nearest`: no number of the format is nearer than the one that is cut off at
  its last place;
* `Binary.code_lt_top_iff`: the code that comes of it is that of a finite datum just below the
  bound;
* `Binary.Rounds`, `Binary.rounds_convert`: what one format makes of a datum of another.
-/

namespace TreeCodec

namespace FloatFormat

variable (F : FloatFormat)

/-- Where rounding leaves the finite data of a format: half a unit beyond the largest of them. -/
def overflow : ℚ := (2 * F.fractionCount - 1 / 2) * 2 ^ (F.minScale + F.topExponent - 2)

end FloatFormat

/-- A whole number next to a number, the even one of two that are as near. -/
structure RoundsTo (y : ℚ) (r : Nat) : Prop where
  near : |(r : ℚ) - y| ≤ 1 / 2
  even : |(r : ℚ) - y| = 1 / 2 → r % 2 = 0

namespace RoundsTo

variable {y : ℚ} {r : Nat}

theorem whole (n : Nat) : RoundsTo n n where
  near := by norm_num
  even h := by norm_num at h

/-- No integer is nearer. -/
theorem nearest (h : RoundsTo y r) (n : Int) : |(r : ℚ) - y| ≤ |(n : ℚ) - y| := by
  by_cases same : n = r
  · rw [same, Int.cast_natCast]
  have apart : (1 : ℚ) ≤ |(n : ℚ) - r| := by
    have : 1 ≤ |n - (r : Int)| := Int.one_le_abs (sub_ne_zero.mpr same)
    exact_mod_cast this
  have detour : |(n : ℚ) - r| ≤ |(n : ℚ) - y| + |(r : ℚ) - y| := by
    rw [abs_sub_comm (r : ℚ) y]
    exact abs_sub_le ..
  have near := h.near
  linarith

theorem le_of_lt {n : Nat} (h : RoundsTo y r) (below : y < n) : r ≤ n := by
  have near := (abs_le.mp h.near).2
  have : (r : ℚ) < n + 1 := by linarith
  exact Nat.lt_succ_iff.mp (by exact_mod_cast this)

theorem ge_of_le {n : Nat} (h : RoundsTo y r) (above : (n : ℚ) ≤ y) : n ≤ r := by
  have near := (abs_le.mp h.near).1
  have : (n : ℚ) < r + 1 := by linarith
  exact Nat.lt_succ_iff.mp (by exact_mod_cast this)

/-- What lies between an odd number and the next one goes up from the middle on. -/
theorem lt_iff {n : Nat} (h : RoundsTo y r) :
    r < 2 * n ↔ y < 2 * n - 1 / 2 := by
  obtain ⟨lower, upper⟩ := abs_le.mp h.near
  constructor
  · intro less
    have bound : (r : ℚ) ≤ 2 * n - 1 := by
      have : (r : ℚ) + 1 ≤ 2 * n := by exact_mod_cast less
      linarith
    refine lt_of_le_of_ne (by linarith) fun middle => ?_
    have last : (r : ℚ) = 2 * n - 1 := by linarith
    have even := h.even (by rw [last, middle]; norm_num [abs_of_nonpos])
    have : r + 1 = 2 * n := by exact_mod_cast (show (r : ℚ) + 1 = 2 * n by linarith)
    omega
  · intro less
    have : (r : ℚ) < 2 * n := by linarith
    exact_mod_cast this

/-- A whole number and a part of one round by the part, and in the middle to the even side. -/
theorem of_part (n : Nat) {t : ℚ} (lower : 0 ≤ t) (upper : t < 1) :
    RoundsTo (n + t) (if 1 / 2 < t ∨ (t = 1 / 2 ∧ n % 2 = 1) then n + 1 else n) := by
  split
  · rename_i up
    have distance : |((n + 1 : Nat) : ℚ) - (n + t)| = 1 - t := by
      rw [Nat.cast_add, Nat.cast_one, add_sub_add_left_eq_sub, abs_of_pos (by linarith)]
    refine ⟨?_, fun middle => ?_⟩
    · rw [distance]
      rcases up with beyond | ⟨middle, -⟩ <;> linarith
    · rw [distance] at middle
      rcases up with beyond | ⟨-, odd⟩
      · linarith
      · omega
  · rename_i down
    have distance : |(n : ℚ) - (n + t)| = t := by
      rw [sub_add_cancel_left, abs_neg, abs_of_nonneg lower]
    rw [not_or, not_lt] at down
    refine ⟨distance.trans_le down.1, fun middle => ?_⟩
    have even : n % 2 ≠ 1 := fun odd => down.2 ⟨distance.symm.trans middle, odd⟩
    omega

end RoundsTo

namespace Binary

variable {F G : FloatFormat}

/-! ### Cutting off -/

theorem roundsTo_shiftRound (m k : Nat) : RoundsTo (m / 2 ^ k) (shiftRound m k) := by
  have unit : (0 : ℚ) < 2 ^ k := pow_pos two_pos k
  have rest : ((m % Nat.pow 2 k : Nat) : ℚ) < 2 ^ k := by
    exact_mod_cast Nat.mod_lt m (Nat.two_pow_pos k)
  have split : (m : ℚ) / 2 ^ k = (m / Nat.pow 2 k : Nat) + (m % Nat.pow 2 k : Nat) / 2 ^ k := by
    rw [← mul_left_inj' unit.ne', add_mul, div_mul_cancel₀ _ unit.ne', div_mul_cancel₀ _ unit.ne']
    exact_mod_cast (Nat.div_add_mod' m (2 ^ k)).symm
  have beyond : (1 / 2 : ℚ) < (m % Nat.pow 2 k : Nat) / 2 ^ k ↔
      Nat.pow 2 k < 2 * (m % Nat.pow 2 k) := by
    rw [div_lt_div_iff₀ two_pos unit, one_mul, mul_comm]
    exact_mod_cast Iff.rfl
  have middle : ((m % Nat.pow 2 k : Nat) : ℚ) / 2 ^ k = 1 / 2 ↔
      2 * (m % Nat.pow 2 k) = Nat.pow 2 k := by
    rw [div_eq_div_iff unit.ne' two_ne_zero, one_mul, mul_comm]
    exact_mod_cast Iff.rfl
  have part := RoundsTo.of_part (m / Nat.pow 2 k)
    (div_nonneg (Nat.cast_nonneg (m % Nat.pow 2 k)) unit.le) ((div_lt_one unit).mpr rest)
  simp only [beyond, middle] at part
  rw [split]
  exact part

/-- A number of `m` units, in units of `2 ^ k`. -/
def cutOff (m : Nat) : Int → Nat
  | .ofNat k => shiftRound m k
  | .negSucc k => m * Nat.pow 2 (k + 1)

theorem roundsTo_cutOff (m : Nat) (k : Int) : RoundsTo (m / 2 ^ k) (cutOff m k) := by
  cases k with
  | ofNat k => exact roundsTo_shiftRound m k
  | negSucc k =>
    have exact : (m : ℚ) / 2 ^ Int.negSucc k = (m * Nat.pow 2 (k + 1) : Nat) := by
      rw [zpow_negSucc, div_inv_eq_mul]
      exact_mod_cast rfl
    rw [exact]
    exact .whole _

/-- The scale of the last place that a format has for a number. -/
def lastPlace (F : FloatFormat) (m : Nat) (q : Int) : Int :=
  max (q + (Nat.log2 m : Int) - F.fractionBits) F.minScale

/-- The exponent field of a number that is not in the last binade, less one. -/
def steps (F : FloatFormat) (m : Nat) (q : Int) : Nat := (lastPlace F m q - F.minScale).toNat

theorem ofScaled_eq {m : Nat} (some : m ≠ 0) (negative : Bool) (q : Int) :
    (ofScaled negative m q : Binary F) =
      let code := steps F m q * F.fractionCount + cutOff m (lastPlace F m q - q)
      if code < F.topExponent * F.fractionCount then ofCode negative code else infinity negative := by
  simp only [ofScaled, if_neg some]
  rfl

/-! ### Codes -/

/-- A significand at a number of steps above the finest scale has the code that puts them together,
unless it could be at a lower one. -/
theorem ofCode_spec {e r : Nat} (negative : Bool) (whole : e = 0 ∨ F.fractionCount ≤ r)
    (fits : r < 2 * F.fractionCount)
    (below : e * F.fractionCount + r < F.topExponent * F.fractionCount) :
    let x : Binary F := ofCode negative (e * F.fractionCount + r)
    x.isFinite = true ∧ x.significand = r ∧ x.scale = F.minScale + e := by
  have count := F.fractionCount_pos
  have field : (e * F.fractionCount + r) / F.fractionCount < F.topExponent :=
    (Nat.div_lt_iff_lt_mul count).mpr below
  have kept : (e * F.fractionCount + r) / F.fractionCount % F.exponentCount =
      (e * F.fractionCount + r) / F.fractionCount :=
    Nat.mod_eq_of_lt (Nat.lt_trans field F.topExponent_lt)
  simp only [isFinite, significand, scale, ofCode, kept]
  rw [Nat.mul_comm e, Nat.mul_add_mod, Nat.mul_add_div count] at *
  refine ⟨bne_iff_ne.mpr (Nat.ne_of_lt field), ?_⟩
  by_cases low : r < F.fractionCount
  · obtain rfl : e = 0 := whole.resolve_right (Nat.not_le.mpr low)
    simp [Nat.div_eq_of_lt low, Nat.mod_eq_of_lt low]
  · have digit : r / F.fractionCount = 1 :=
      Nat.div_eq_of_lt_le (by omega) (by omega)
    have rest : F.fractionCount + r % F.fractionCount = r := by
      have := Nat.div_add_mod r F.fractionCount
      rwa [digit, Nat.mul_one] at this
    rw [digit]
    exact ⟨by rw [if_neg (Nat.succ_ne_zero e), rest], by simp⟩

/-- So it does where rounding has carried it over to the next power. -/
theorem ofCode_carried {e r : Nat} (negative : Bool) (whole : e = 0 ∨ F.fractionCount ≤ r)
    (fits : r ≤ 2 * F.fractionCount)
    (below : e * F.fractionCount + r < F.topExponent * F.fractionCount) :
    let x : Binary F := ofCode negative (e * F.fractionCount + r)
    x.isFinite = true ∧ (x.significand : ℚ) * 2 ^ x.scale = r * 2 ^ (F.minScale + e) := by
  rcases Nat.lt_or_eq_of_le fits with fits | rfl
  · obtain ⟨finite, significand, scale⟩ := ofCode_spec negative whole fits below
    exact ⟨finite, by rw [significand, scale]⟩
  · have count := F.fractionCount_pos
    have carried : e * F.fractionCount + 2 * F.fractionCount =
        (e + 1) * F.fractionCount + F.fractionCount := by ring
    rw [carried] at below ⊢
    obtain ⟨finite, significand, scale⟩ := ofCode_spec negative (.inr le_rfl) (by omega) below
    refine ⟨finite, ?_⟩
    rw [significand, scale, Nat.cast_add, Nat.cast_one, ← add_assoc, zpow_add_one₀ two_ne_zero,
      Nat.cast_mul, Nat.cast_ofNat]
    ring

/-! ### The last place -/

section

variable (F) {m : Nat} (q : Int)

theorem lastPlace_eq : lastPlace F m q = F.minScale + steps F m q := by
  rw [steps, lastPlace]
  omega

/-- What is in front of the last place fits a significand. -/
theorem cut_lt (m : Nat) : (m : ℚ) / 2 ^ (lastPlace F m q - q) < 2 * F.fractionCount := by
  have unit : (0 : ℚ) < 2 ^ (lastPlace F m q - q) := zpow_pos two_pos _
  have above : (m : ℚ) < 2 ^ ((m.log2 : ℤ) + 1) := by
    exact_mod_cast Nat.lt_log2_self
  have place : (m.log2 : ℤ) + 1 ≤ F.fractionBits + 1 + (lastPlace F m q - q) := by
    rw [lastPlace]
    omega
  rw [div_lt_iff₀ unit, fractionCount_cast, ← zpow_one_add₀ two_ne_zero, ← zpow_add₀ two_ne_zero,
    add_comm 1]
  exact above.trans_le (zpow_le_zpow_right₀ one_le_two place)

/-- Above the finest scale it has a leading one. -/
theorem le_cut (some : m ≠ 0) (coarse : steps F m q ≠ 0) :
    (F.fractionCount : ℚ) ≤ m / 2 ^ (lastPlace F m q - q) := by
  have unit : (0 : ℚ) < 2 ^ (lastPlace F m q - q) := zpow_pos two_pos _
  have leading : (2 : ℚ) ^ (m.log2 : ℤ) ≤ m := by
    exact_mod_cast Nat.log2_self_le some
  have place : F.fractionBits + (lastPlace F m q - q) = (m.log2 : ℤ) := by
    rw [steps, lastPlace] at coarse
    rw [lastPlace]
    omega
  rwa [le_div_iff₀ unit, fractionCount_cast, ← zpow_add₀ two_ne_zero, place]

end

/-- A number of `e` steps has a code below that of infinity just where it is below the bound. -/
theorem code_lt_iff {y : ℚ} {r e k n : Nat} (round : RoundsTo y r) (some : 0 < n)
    (upper : y < 2 * n) (lower : e ≠ 0 → (n : ℚ) ≤ y) :
    e * n + r < (k + 2) * n ↔ y * 2 ^ e < (2 * n - 1 / 2) * 2 ^ k := by
  have one : (1 : ℚ) ≤ n := by exact_mod_cast some
  rcases Nat.lt_trichotomy e k with fine | rfl | coarse
  · -- All numbers of so few steps are below the bound.
    have small : r ≤ 2 * n := round.le_of_lt (by exact_mod_cast upper)
    have room : (e + 1) * n ≤ k * n := Nat.mul_le_mul_right n fine
    have double : (2 : ℚ) ^ e * 2 ≤ 2 ^ k := by
      rw [← pow_succ]
      exact pow_le_pow_right₀ one_le_two fine
    refine iff_of_true (by linarith [Nat.add_mul e 1 n, Nat.add_mul k 2 n]) ?_
    calc y * 2 ^ e < 2 * n * 2 ^ e := mul_lt_mul_of_pos_right upper (pow_pos two_pos e)
      _ = n * (2 ^ e * 2) := by ring
      _ ≤ (2 * n - 1 / 2) * 2 ^ k := by
        exact mul_le_mul (by linarith) double (by positivity) (by linarith)
  · -- In the last binade rounding decides.
    rw [mul_lt_mul_iff_left₀ (pow_pos two_pos e), ← round.lt_iff, Nat.add_mul]
    exact Nat.add_lt_add_iff_left
  · have leading : n ≤ r := round.ge_of_le (lower (Nat.ne_zero_of_lt coarse))
    have room : (k + 1) * n ≤ e * n := Nat.mul_le_mul_right n coarse
    have double : (2 : ℚ) ^ k * 2 ≤ 2 ^ e := by
      rw [← pow_succ]
      exact pow_le_pow_right₀ one_le_two coarse
    refine iff_of_false (by linarith [Nat.add_mul k 1 n, Nat.add_mul k 2 n]) (not_lt.mpr ?_)
    calc (2 * n - 1 / 2 : ℚ) * 2 ^ k ≤ 2 * n * 2 ^ k :=
          mul_le_mul_of_nonneg_right (by linarith) (by positivity)
      _ = n * (2 ^ k * 2) := by ring
      _ ≤ y * 2 ^ e :=
        mul_le_mul (lower (Nat.ne_zero_of_lt coarse)) double (by positivity)
          ((Nat.cast_nonneg n).trans (lower (Nat.ne_zero_of_lt coarse)))

/-! ### The nearest number -/

/-- A number of `m` units of `2 ^ q`, in units of its last place. -/
theorem cut_mul (F : FloatFormat) (m : Nat) (q : Int) :
    (m : ℚ) / 2 ^ (lastPlace F m q - q) * 2 ^ lastPlace F m q = m * 2 ^ q := by
  rw [zpow_sub₀ two_ne_zero, div_div_eq_mul_div, div_mul_cancel₀ _ (zpow_ne_zero _ two_ne_zero)]

/-- No number of the format, of either sign, is nearer than the one that is cut off. -/
theorem cutOff_nearest {m : Nat} (some : m ≠ 0) (q : Int) (z : Binary F) {v : ℚ}
    (hv : |v| = z.significand * 2 ^ z.scale) :
    |(cutOff m (lastPlace F m q - q) : ℚ) * 2 ^ lastPlace F m q - m * 2 ^ q| ≤ |v - m * 2 ^ q| := by
  have round := roundsTo_cutOff m (lastPlace F m q - q)
  have upper := cut_lt F q m
  have lower := le_cut F q some
  have steps := lastPlace_eq F q (m := m)
  rw [← cut_mul F m q]
  generalize (m : ℚ) / 2 ^ (lastPlace F m q - q) = y at *
  generalize cutOff m (lastPlace F m q - q) = r at *
  generalize lastPlace F m q = place at *
  have unit : (0 : ℚ) < 2 ^ place := zpow_pos two_pos _
  rw [← sub_mul, abs_mul, abs_of_pos unit]
  by_cases coarse : place ≤ z.scale
  · -- A whole number of units.
    obtain ⟨k, hk⟩ := Int.eq_ofNat_of_zero_le (sub_nonneg.mpr coarse)
    obtain ⟨n, rfl⟩ : ∃ n : Int, v = n * 2 ^ place := by
      have magnitude : |v| = ((z.significand * 2 ^ k : Nat) : Int) * 2 ^ place := by
        rw [hv, show z.scale = k + place by omega, zpow_add₀ two_ne_zero]
        push_cast
        rw [zpow_natCast, mul_assoc]
      rcases abs_choice v with same | opposite
      · exact ⟨_, same.symm.trans magnitude⟩
      · refine ⟨-((z.significand * 2 ^ k : Nat) : Int), ?_⟩
        rw [Int.cast_neg, neg_mul, ← magnitude, opposite, neg_neg]
    rw [← sub_mul, abs_mul, abs_of_pos unit]
    exact mul_le_mul_of_nonneg_right (round.nearest n) unit.le
  · -- A finer number is below the first one that has this last place.
    have above : (F.fractionCount : ℚ) ≤ y := by
      refine lower fun finest => coarse ?_
      rw [steps, finest, scale]
      omega
    have below : |v| ≤ F.fractionCount * 2 ^ place := by
      have narrow : (z.significand : ℚ) ≤ F.fractionCount * 2 := by
        exact_mod_cast (Nat.mul_comm .. ▸ z.significand_lt.le)
      calc |v| = z.significand * 2 ^ z.scale := hv
        _ ≤ F.fractionCount * 2 * 2 ^ z.scale :=
          mul_le_mul_of_nonneg_right narrow (zpow_pos two_pos _).le
        _ = F.fractionCount * 2 ^ (1 + z.scale) := by rw [zpow_one_add₀ two_ne_zero, mul_assoc]
        _ ≤ F.fractionCount * 2 ^ place :=
          mul_le_mul_of_nonneg_left (zpow_le_zpow_right₀ one_le_two (by omega)) (Nat.cast_nonneg _)
    have first : |(r : ℚ) - y| ≤ y - F.fractionCount := by
      have := round.nearest F.fractionCount
      rwa [Int.cast_natCast, abs_sub_comm (F.fractionCount : ℚ), abs_of_nonneg (sub_nonneg.mpr above)]
        at this
    calc |(r : ℚ) - y| * 2 ^ place ≤ (y - F.fractionCount) * 2 ^ place :=
          mul_le_mul_of_nonneg_right first unit.le
      _ = y * 2 ^ place - F.fractionCount * 2 ^ place := sub_mul ..
      _ ≤ y * 2 ^ place - |v| := sub_le_sub_left below _
      _ ≤ |v - y * 2 ^ place| := by
        rw [abs_sub_comm]
        exact (sub_le_sub_left (le_abs_self v) _).trans (le_abs_self _)

/-- The code of a rounded number is that of a finite datum just below the bound. -/
theorem code_lt_top_iff (wide : 2 ≤ F.topExponent) {m : Nat} (some : m ≠ 0) (q : Int) :
    steps F m q * F.fractionCount + cutOff m (lastPlace F m q - q) <
      F.topExponent * F.fractionCount ↔ (m : ℚ) * 2 ^ q < F.overflow := by
  obtain ⟨k, top⟩ := Nat.exists_eq_add_of_le' wide
  have bound : F.overflow = (2 * F.fractionCount - 1 / 2) * 2 ^ k * 2 ^ F.minScale := by
    rw [FloatFormat.overflow, top, show F.minScale + ((k + 2 : Nat) : ℤ) - 2 = k + F.minScale by omega,
      zpow_add₀ two_ne_zero, zpow_natCast, mul_assoc]
  have number : (m : ℚ) * 2 ^ q =
      m / 2 ^ (lastPlace F m q - q) * 2 ^ steps F m q * 2 ^ F.minScale := by
    rw [← cut_mul F m q, mul_assoc, ← zpow_natCast, ← zpow_add₀ two_ne_zero, add_comm, ← lastPlace_eq]
  rw [number, bound, mul_lt_mul_iff_left₀ (zpow_pos two_pos _), top]
  exact code_lt_iff (roundsTo_cutOff _ _) F.fractionCount_pos (cut_lt F q m) (le_cut F q some)

/-! ### Signs -/

/-- The sign of a datum as a number. -/
def sign (negative : Bool) : ℚ := if negative then -1 else 1

theorem abs_sign_mul (negative : Bool) (v : ℚ) : |sign negative * v| = |v| := by
  cases negative <;> simp [sign]

theorem sign_mul_sign_mul (negative : Bool) (v : ℚ) : sign negative * (sign negative * v) = v := by
  cases negative <;> simp [sign]

/-- Two numbers are as far from one another with another sign. -/
theorem abs_sub_sign_mul (negative : Bool) (v w : ℚ) :
    |v - sign negative * w| = |sign negative * v - w| := by
  cases negative with
  | false => simp [sign]
  | true => rw [sign, if_pos rfl, neg_one_mul, neg_one_mul, ← abs_neg, neg_sub', neg_neg]

theorem value_eq_sign_mul (x : Binary F) :
    x.value = sign x.negative * (x.significand * 2 ^ x.scale) := by
  rw [value_eq, sign]
  split <;> ring

theorem abs_value (x : Binary F) : |x.value| = x.significand * 2 ^ x.scale := by
  rw [value_eq_sign_mul, abs_sign_mul, abs_of_nonneg]
  exact mul_nonneg (Nat.cast_nonneg _) (zpow_pos two_pos _).le

/-! ### Rounding -/

/-- What rounding makes of a number with a sign: the nearest number of the format, or from the
bound on the infinity of the sign. -/
structure Rounds (negative : Bool) (v : ℚ) (x : Binary F) : Prop where
  finite : x.isFinite = true ↔ |v| < F.overflow
  nearest : x.isFinite = true → ∀ z : Binary F, z.isFinite = true → |x.value - v| ≤ |z.value - v|
  infinite : x.isFinite = false → x = infinity negative

theorem overflow_pos (F : FloatFormat) : 0 < F.overflow := by
  have some : (1 : ℚ) ≤ F.fractionCount := by exact_mod_cast F.fractionCount_pos
  exact mul_pos (by linarith) (zpow_pos two_pos _)

theorem rounds_zero (wide : 2 ≤ F.topExponent) (negative : Bool) :
    Rounds negative 0 (zero negative : Binary F) := by
  have finite : (zero negative : Binary F).isFinite = true := by
    simp only [isFinite, zero, ofCode, Nat.zero_div, Nat.zero_mod, bne_iff_ne]
    omega
  refine ⟨iff_of_true finite (abs_zero.trans_lt (overflow_pos F)), fun _ z _ => ?_, fun infinite => ?_⟩
  · rw [value_zero, sub_self, abs_zero]
    exact abs_nonneg _
  · rw [finite] at infinite
    cases infinite

theorem rounds_infinity {v : ℚ} (negative : Bool) (beyond : ¬ |v| < F.overflow) :
    Rounds negative v (infinity negative : Binary F) := by
  have infinite : (infinity negative : Binary F).isFinite = false := by simp [isFinite, infinity]
  refine ⟨iff_of_false (by rw [infinite]; exact Bool.false_ne_true) beyond, fun finite => ?_, fun _ => rfl⟩
  rw [infinite] at finite
  cases finite

theorem rounds_ofScaled (wide : 2 ≤ F.topExponent) (negative : Bool) (m : Nat) (q : Int) :
    Rounds negative (sign negative * (m * 2 ^ q)) (ofScaled negative m q : Binary F) := by
  by_cases none : m = 0
  · rw [none, Nat.cast_zero, zero_mul, mul_zero]
    exact rounds_zero wide negative
  have magnitude : |sign negative * (m * 2 ^ q)| = m * 2 ^ q := by
    rw [abs_sign_mul]
    exact abs_of_nonneg (mul_nonneg (Nat.cast_nonneg _) (zpow_pos two_pos _).le)
  have bound := code_lt_top_iff wide none q
  have round := roundsTo_cutOff m (lastPlace F m q - q)
  have fits := round.le_of_lt (n := 2 * F.fractionCount) (by exact_mod_cast cut_lt F q m)
  have whole : steps F m q = 0 ∨ F.fractionCount ≤ cutOff m (lastPlace F m q - q) :=
    or_iff_not_imp_left.mpr fun coarse => round.ge_of_le (le_cut F q none coarse)
  simp only [ofScaled_eq none]
  by_cases below : steps F m q * F.fractionCount + cutOff m (lastPlace F m q - q) <
      F.topExponent * F.fractionCount
  · obtain ⟨finite, number⟩ := ofCode_carried negative whole fits below
    rw [if_pos below]
    refine ⟨iff_of_true finite (magnitude.trans_lt (bound.mp below)), fun _ z _ => ?_, fun infinite => ?_⟩
    · have distance := cutOff_nearest none q z ((abs_sign_mul negative _).trans z.abs_value)
      rwa [value_eq_sign_mul, number, ← lastPlace_eq, abs_sub_sign_mul, abs_sub_sign_mul,
        show (ofCode negative _ : Binary F).negative = negative from rfl, sign_mul_sign_mul]
    · rw [finite] at infinite
      cases infinite
  · rw [if_neg below]
    exact rounds_infinity negative fun less => below (bound.mpr (magnitude.symm.trans_lt less))

/-- A finite datum becomes what its number is rounded to. -/
theorem rounds_convert (wide : 2 ≤ G.topExponent) {x : Binary F} (finite : x.isFinite = true) :
    Rounds x.negative x.value (x.convert : Binary G) := by
  rw [convert, if_pos finite, value_eq_sign_mul]
  exact rounds_ofScaled wide x.negative x.significand x.scale

theorem overflow_single : FloatFormat.single.overflow = 2 ^ 128 - 2 ^ 103 := by
  norm_num [FloatFormat.overflow, FloatFormat.single, FloatFormat.fractionCount, FloatFormat.minScale,
    FloatFormat.bias, FloatFormat.topExponent, FloatFormat.exponentCount]

end Binary

end TreeCodec
