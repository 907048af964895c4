import Mathlib.Algebra.Order.Field.Power
import Mathlib.Tactic.FieldSimp
import Mathlib.Tactic.Linarith
import Mathlib.Tactic.Ring
import Workflow.Proofs.Number.Value

/-!
# Rounding

The magnitudes of floating-point numbers stand in a row, each with its value, and infinity continues
the row. A value is rounded to the magnitude between whose middles it lies. That says what rounding
is without saying how it is done, and what is computed for a ratio or a decimal is shown to be that
magnitude.
-/

namespace Workflow

/-! ## Powers and ratios -/

theorem cast_natPow (b n : Nat) : ((Nat.pow b n : Nat) : ℚ) = (b : ℚ) ^ n :=
  Nat.cast_pow b n

/-- A power of a positive base, told by two powers of which one is one. -/
theorem natPow_toNat {b : Nat} (hb : 0 < b) (k : Int) :
    ((Nat.pow b k.toNat : Nat) : ℚ) = (b : ℚ) ^ k * (Nat.pow b (-k).toNat : Nat) := by
  have hb' : (b : ℚ) ≠ 0 := by exact_mod_cast hb.ne'
  obtain ⟨n, rfl | rfl⟩ := k.eq_nat_or_neg
  · simp
  · simp [hb']

/-- Powers of two bases are compared by two powers that are known. -/
theorem zpow_le_zpow_of_pow_le {x y : ℚ} (hx : 0 < x) (hy : 1 ≤ y) {a b : Nat} (ha : a ≠ 0)
    (h : x ^ a ≤ y ^ b) {p q : ℤ} (hp : 0 ≤ p) (hpq : b * p ≤ a * q) : x ^ p ≤ y ^ q := by
  have hy' : 0 < y := one_pos.trans_le hy
  refine (pow_le_pow_iff_left₀ (by positivity) (by positivity) ha).mp ?_
  calc (x ^ p) ^ a = (x ^ a) ^ p := by
        rw [← zpow_natCast, ← zpow_mul, ← zpow_natCast x, ← zpow_mul, mul_comm]
    _ ≤ (y ^ b) ^ p := zpow_le_zpow_left₀ hp (by positivity) h
    _ = y ^ (b * p) := by rw [← zpow_natCast, ← zpow_mul]
    _ ≤ y ^ (a * q) := zpow_le_zpow_right₀ hy hpq
    _ = (y ^ q) ^ a := by rw [← zpow_natCast, ← zpow_mul, mul_comm]

/-- A ratio is rounded to the nearest integer, and halfway to the even one. -/
theorem roundDiv_spec (n : Nat) {d : Nat} (hd : 0 < d) :
    (roundDiv n d - 1 / 2 : ℚ) ≤ n / d ∧ (n / d : ℚ) ≤ roundDiv n d + 1 / 2 ∧
      ((roundDiv n d - 1 / 2 : ℚ) = n / d ∨ (n / d : ℚ) = roundDiv n d + 1 / 2 →
        roundDiv n d % 2 = 0) := by
  have hd' : (0 : ℚ) < d := by exact_mod_cast hd
  have hsplit : (n / d : ℚ) = (n / d : Nat) + (n % d : Nat) / d := by
    rw [div_eq_iff hd'.ne', add_mul, div_mul_cancel₀ _ hd'.ne']
    exact_mod_cast (Nat.div_add_mod' n d).symm
  have hnonneg : (0 : ℚ) ≤ (n % d : Nat) / d := div_nonneg (Nat.cast_nonneg _) hd'.le
  have hlt : ((n % d : Nat) / d : ℚ) < 1 := by
    rw [div_lt_one₀ hd']
    exact_mod_cast Nat.mod_lt n hd
  have hlow (h : 2 * (n % d) < d) : ((n % d : Nat) / d : ℚ) < 1 / 2 := by
    rw [div_lt_div_iff₀ hd' two_pos]
    exact_mod_cast by omega
  have hhigh (h : d < 2 * (n % d)) : (1 / 2 : ℚ) < (n % d : Nat) / d := by
    rw [div_lt_div_iff₀ two_pos hd']
    exact_mod_cast by omega
  have hhalf (h : 2 * (n % d) = d) : ((n % d : Nat) / d : ℚ) = 1 / 2 := by
    rw [div_eq_div_iff hd'.ne' two_ne_zero]
    exact_mod_cast by omega
  rw [hsplit]
  unfold roundDiv
  dsimp only
  generalize ((n % d : Nat) / d : ℚ) = part at hnonneg hlt hlow hhigh hhalf ⊢
  split_ifs with hbelow habove heven
  · have := hlow hbelow
    refine ⟨by linarith, by linarith, ?_⟩
    rintro (h | h) <;> linarith
  · have := hhigh habove
    push_cast
    refine ⟨by linarith, by linarith, ?_⟩
    rintro (h | h) <;> linarith
  · have := hhalf (by omega)
    exact ⟨by linarith, by linarith, fun _ => heven⟩
  · have := hhalf (by omega)
    push_cast
    exact ⟨by linarith, by linarith, fun _ => by omega⟩

/-- What is rounded is a ratio, scaled by a power of two. -/
theorem roundDiv_scaled_spec (num : Nat) {den : Nat} (hden : 0 < den) (s : Int) {m : Nat}
    (h : roundDiv (num * Nat.pow 2 (-s).toNat) (den * Nat.pow 2 s.toNat) = m) :
    (m - 1 / 2 : ℚ) * 2 ^ s ≤ num / den ∧ (num / den : ℚ) ≤ (m + 1 / 2) * 2 ^ s ∧
      ((m - 1 / 2 : ℚ) * 2 ^ s = num / den ∨ (num / den : ℚ) = (m + 1 / 2) * 2 ^ s →
        m % 2 = 0) := by
  have hden' : (den : ℚ) ≠ 0 := by exact_mod_cast hden.ne'
  have hpow : ((Nat.pow 2 s.toNat : Nat) : ℚ) ≠ 0 := by
    exact_mod_cast (Nat.pow_pos two_pos).ne'
  have hscale : (0 : ℚ) < 2 ^ s := by positivity
  have hratio : ((num * Nat.pow 2 (-s).toNat : Nat) / (den * Nat.pow 2 s.toNat : Nat) : ℚ) =
      num / den / 2 ^ s := by
    have hpowers := natPow_toNat two_pos (-s)
    rw [neg_neg] at hpowers
    rw [Nat.cast_mul, Nat.cast_mul, hpowers, Nat.cast_ofNat, zpow_neg]
    field_simp
  have hround := roundDiv_spec (num * Nat.pow 2 (-s).toNat) (d := den * Nat.pow 2 s.toNat)
    (Nat.mul_pos hden (Nat.pow_pos two_pos))
  rw [h, hratio, le_div_iff₀ hscale, div_le_iff₀ hscale, eq_div_iff hscale.ne',
    div_eq_iff hscale.ne'] at hround
  exact hround

theorem abs_signed_sub_signed (isNegative : Bool) (v w : ℚ) :
    |signed isNegative v - signed isNegative w| = |v - w| := by
  cases isNegative with
  | false => rfl
  | true =>
    show |-v - -w| = _
    rw [neg_sub_neg, abs_sub_comm]

/-- The same sign brings two sizes nearer than two different ones. -/
theorem abs_sub_le_abs_signed_sub (a b : Bool) {v w : ℚ} (hv : 0 ≤ v) (hw : 0 ≤ w) :
    |v - w| ≤ |signed a v - signed b w| := by
  by_cases h : a = b
  · rw [h, abs_signed_sub_signed]
  · have hsum : |signed a v - signed b w| = v + w := by
      cases a <;> cases b
      · exact absurd rfl h
      · show |v - -w| = _
        rw [sub_neg_eq_add, abs_of_nonneg (by linarith)]
      · show |-v - w| = _
        rw [← neg_add', abs_neg, abs_of_nonneg (by linarith)]
      · exact absurd rfl h
    rw [hsum, abs_le]
    constructor <;> linarith

/-- The value of an unsigned decimal. -/
def Decimal.value (d : Decimal) : ℚ := d.digits * 10 ^ d.exponent

theorem Decimal.value_nonneg (d : Decimal) : 0 ≤ d.value :=
  mul_nonneg (Nat.cast_nonneg _) (by positivity)

namespace Binary64

/-- The power of two below a ratio, and the next one. -/
theorem floorLog2_spec {num den : Nat} (hnum : 0 < num) (hden : 0 < den) :
    (2 : ℚ) ^ floorLog2 num den ≤ num / den ∧ (num / den : ℚ) < 2 ^ (floorLog2 num den + 1) := by
  have hden' : (0 : ℚ) < den := by exact_mod_cast hden
  have hlow : (2 : ℚ) ^ num.log2 ≤ num := by exact_mod_cast Nat.log2_self_le hnum.ne'
  have hhigh : (num : ℚ) < 2 ^ (num.log2 + 1) := by exact_mod_cast Nat.lt_log2_self
  have hlow' : (2 : ℚ) ^ den.log2 ≤ den := by exact_mod_cast Nat.log2_self_le hden.ne'
  have hhigh' : (den : ℚ) < 2 ^ (den.log2 + 1) := by exact_mod_cast Nat.lt_log2_self
  -- the ratio is less than a factor of two away from the ratio of the two powers of two
  have hbelow : (2 : ℚ) ^ ((num.log2 : Int) - den.log2 - 1) ≤ num / den := by
    rw [le_div_iff₀ hden']
    calc (2 : ℚ) ^ ((num.log2 : Int) - den.log2 - 1) * den
        ≤ 2 ^ ((num.log2 : Int) - den.log2 - 1) * 2 ^ (den.log2 + 1) := by gcongr
      _ = 2 ^ num.log2 := by
        rw [← zpow_natCast, ← zpow_natCast, ← zpow_add₀ two_ne_zero]
        congr 1
        omega
      _ ≤ num := hlow
  have habove : (num / den : ℚ) < 2 ^ ((num.log2 : Int) - den.log2 + 1) := by
    rw [div_lt_iff₀ hden']
    calc (num : ℚ) < 2 ^ (num.log2 + 1) := hhigh
      _ = 2 ^ ((num.log2 : Int) - den.log2 + 1) * 2 ^ den.log2 := by
        rw [← zpow_natCast, ← zpow_natCast, ← zpow_add₀ two_ne_zero]
        congr 1
        omega
      _ ≤ 2 ^ ((num.log2 : Int) - den.log2 + 1) * den := by gcongr
  unfold floorLog2
  dsimp only
  generalize (num.log2 : Int) - den.log2 = k at hbelow habove ⊢
  have hpow : (0 : ℚ) < (Nat.pow 2 (-k).toNat : Nat) := by
    exact_mod_cast Nat.pow_pos two_pos
  have hcompare : den * Nat.pow 2 k.toNat ≤ num * Nat.pow 2 (-k).toNat ↔
      (2 : ℚ) ^ k ≤ num / den := by
    rw [le_div_iff₀ hden', ← Nat.cast_le (α := ℚ), Nat.cast_mul, Nat.cast_mul,
      natPow_toNat two_pos, ← mul_assoc, mul_le_mul_iff_left₀ hpow, mul_comm]
    rfl
  split_ifs with h
  · exact ⟨hcompare.mp h, habove⟩
  · rw [sub_add_cancel]
    exact ⟨hbelow, lt_of_not_ge (hcompare.not.mp h)⟩

/-! ## The row of magnitudes -/

/-- The value of a magnitude. The one of infinity continues the row, as the power of two above all
finite numbers. -/
def sizeAt (k : Nat) : ℚ :=
  (if k < hiddenBit then k else hiddenBit + k % hiddenBit : Nat) *
    2 ^ (if k < hiddenBit then -1074 else (k / hiddenBit : Nat) - 1075 : ℤ)

theorem size_nonneg (x : Binary64) : 0 ≤ x.size :=
  div_nonneg (Nat.cast_nonneg _) (Nat.cast_nonneg _)

theorem size_eq_sizeAt (x : Binary64) : x.size = sizeAt x.magnitude := by
  have hpow : ((Nat.pow 2 (-x.exponent).toNat : Nat) : ℚ) ≠ 0 := by
    exact_mod_cast (Nat.pow_pos two_pos).ne'
  rw [size, Nat.cast_mul, natPow_toNat two_pos, ← mul_assoc, mul_div_cancel_right₀ _ hpow,
    Nat.cast_ofNat]
  rfl

/-- Every magnitude lies in one binade, in front of its end. -/
theorem exists_binade (k : Nat) :
    ∃ n m, k = n * hiddenBit + m ∧ m < 2 * hiddenBit ∧ (n = 0 ∨ hiddenBit ≤ m) := by
  have hpos : 0 < hiddenBit := by decide
  by_cases hk : k < hiddenBit
  · exact ⟨0, k, by omega, by omega, .inl rfl⟩
  · have hmod := Nat.mod_lt k hpos
    have hdiv : 1 ≤ k / hiddenBit := Nat.div_pos (by omega) hpos
    refine ⟨k / hiddenBit - 1, hiddenBit + k % hiddenBit, ?_, by omega, .inr (by omega)⟩
    have hsplit := Nat.div_add_mod' k hiddenBit
    obtain ⟨n, hn⟩ := Nat.exists_eq_add_of_le hdiv
    rw [hn] at hsplit ⊢
    rw [Nat.add_sub_cancel_left, ← Nat.add_assoc, ← Nat.succ_mul, Nat.succ_eq_one_add, hsplit]

/-- The significand and the exponent of a magnitude, told from its place in its binade. -/
theorem parts_add {n m : Nat} (hm : m < 2 * hiddenBit) (h : n = 0 ∨ hiddenBit ≤ m) :
    (if n * hiddenBit + m < hiddenBit then n * hiddenBit + m
      else hiddenBit + (n * hiddenBit + m) % hiddenBit) = m ∧
    (if n * hiddenBit + m < hiddenBit then -1074
      else ((n * hiddenBit + m) / hiddenBit : Nat) - 1075 : ℤ) = n - 1074 := by
  have hpos : 0 < hiddenBit := by decide
  by_cases hlt : n * hiddenBit + m < hiddenBit
  · obtain rfl : n = 0 := h.resolve_right (by omega)
    rw [if_pos hlt, if_pos hlt]
    omega
  · have hle : hiddenBit ≤ m := by
      rcases h with rfl | h
      · omega
      · exact h
    obtain ⟨l, rfl⟩ := Nat.exists_eq_add_of_le hle
    have hsum : n * hiddenBit + (hiddenBit + l) = l + (n + 1) * hiddenBit := by ring
    rw [if_neg hlt, if_neg hlt, hsum, Nat.add_mul_mod_self_right, Nat.add_mul_div_right _ _ hpos,
      Nat.mod_eq_of_lt (by omega), Nat.div_eq_of_lt (by omega)]
    exact ⟨rfl, by push_cast; ring⟩

/-- The value of a magnitude, told from its place in its binade or at the end of it. -/
theorem sizeAt_add {n m : Nat} (hm : m ≤ 2 * hiddenBit) (h : n = 0 ∨ hiddenBit ≤ m) :
    sizeAt (n * hiddenBit + m) = m * 2 ^ (n - 1074 : ℤ) := by
  rcases Nat.lt_or_eq_of_le hm with hlt | rfl
  · obtain ⟨hsignificand, hexponent⟩ := parts_add hlt h
    rw [sizeAt, hsignificand, hexponent]
  · -- the end of a binade is the start of the next one
    obtain ⟨hsignificand, hexponent⟩ := parts_add (n := n + 1) (m := hiddenBit) (by decide)
      (.inr le_rfl)
    rw [show n * hiddenBit + 2 * hiddenBit = (n + 1) * hiddenBit + hiddenBit by ring, sizeAt,
      hsignificand, hexponent,
      show ((n + 1 : Nat) - 1074 : ℤ) = (n - 1074 : ℤ) + 1 by push_cast; ring,
      zpow_add_one₀ two_ne_zero, Nat.cast_mul]
    push_cast
    ring

/-- The binades start at the powers of two. -/
theorem sizeAt_mul_hiddenBit (n : Nat) : sizeAt ((n + 1) * hiddenBit) = 2 ^ (n - 1022 : ℤ) := by
  rw [Nat.succ_mul, sizeAt_add (by decide) (.inr le_rfl),
    show (hiddenBit : ℚ) = 2 ^ (52 : ℤ) by norm_num [hiddenBit], ← zpow_add₀ two_ne_zero]
  congr 1
  ring

theorem sizeAt_lt_succ (k : Nat) : sizeAt k < sizeAt (k + 1) := by
  obtain ⟨n, m, rfl, hm, h⟩ := exists_binade k
  rw [Nat.add_assoc, sizeAt_add hm.le h, sizeAt_add hm (h.imp_right (by omega))]
  exact mul_lt_mul_of_pos_right (by exact_mod_cast Nat.lt_succ_self m) (by positivity)

theorem strictMono_sizeAt : StrictMono sizeAt := strictMono_nat_of_lt_succ sizeAt_lt_succ

/-- The value halfway between a magnitude and the next one. -/
def middle (k : Nat) : ℚ := (sizeAt k + sizeAt (k + 1)) / 2

theorem sizeAt_lt_middle (k : Nat) : sizeAt k < middle k := by
  have := sizeAt_lt_succ k
  rw [middle]
  linarith

theorem middle_lt_sizeAt (k : Nat) : middle k < sizeAt (k + 1) := by
  have := sizeAt_lt_succ k
  rw [middle]
  linarith

theorem strictMono_middle : StrictMono middle :=
  strictMono_nat_of_lt_succ fun k => (middle_lt_sizeAt k).trans (sizeAt_lt_middle (k + 1))

/-- The middle behind a magnitude of a binade. -/
theorem middle_add {n m : Nat} (hm : m < 2 * hiddenBit) (h : n = 0 ∨ hiddenBit ≤ m) :
    middle (n * hiddenBit + m) = (m + 1 / 2) * 2 ^ (n - 1074 : ℤ) := by
  rw [middle, Nat.add_assoc, sizeAt_add hm.le h, sizeAt_add hm (h.imp_right (by omega))]
  push_cast
  ring

/-! ## Rounding -/

/-- A value is rounded to a magnitude: it lies between the middles around it, and on one of them
only if the magnitude is even. Nothing is too large for infinity. -/
structure RoundsTo (v : ℚ) (k : Nat) : Prop where
  above : ∀ j, k = j + 1 → middle j ≤ v ∧ (middle j = v → k % 2 = 0)
  below : k < infinite → v ≤ middle k ∧ (v = middle k → k % 2 = 0)

/-- Rounding to a finite magnitude other than zero. -/
theorem roundsTo_succ_iff {v : ℚ} {j : Nat} (hfinite : j + 1 < infinite) : RoundsTo v (j + 1) ↔
    (middle j < v ∨ (j + 1) % 2 = 0 ∧ middle j = v) ∧
      (v < middle (j + 1) ∨ (j + 1) % 2 = 0 ∧ v = middle (j + 1)) := by
  constructor
  · intro h
    obtain ⟨hle, heven⟩ := h.above j rfl
    obtain ⟨hle', heven'⟩ := h.below hfinite
    exact ⟨(lt_or_eq_of_le hle).imp_right fun h => ⟨heven h, h⟩,
      (lt_or_eq_of_le hle').imp_right fun h => ⟨heven' h, h⟩⟩
  · rintro ⟨habove, hbelow⟩
    refine ⟨fun i hi => ?_, fun _ => ?_⟩
    · obtain rfl : j = i := by omega
      rcases habove with h | ⟨heven, h⟩
      · exact ⟨h.le, fun h' => absurd h' h.ne⟩
      · exact ⟨h.le, fun _ => heven⟩
    · rcases hbelow with h | ⟨heven, h⟩
      · exact ⟨h.le, fun h' => absurd h' h.ne⟩
      · exact ⟨h.le, fun _ => heven⟩

/-- A value is rounded to one magnitude only. -/
theorem RoundsTo.unique {v : ℚ} {j k : Nat} (hj : RoundsTo v j) (hk : RoundsTo v k)
    (hj' : j ≤ infinite) (hk' : k ≤ infinite) : j = k := by
  have hnot {j k : Nat} (hj : RoundsTo v j) (hk : RoundsTo v k) (hk' : k ≤ infinite) : ¬ j < k := by
    intro hlt
    obtain ⟨i, rfl⟩ := Nat.exists_eq_succ_of_ne_zero (Nat.ne_zero_of_lt hlt)
    obtain ⟨hle, heven⟩ := hj.below (by omega)
    obtain ⟨hle', heven'⟩ := hk.above i rfl
    -- only the middle between two neighbours could be rounded to both, and one of them is odd
    have hij : middle i ≤ middle j := hle'.trans hle
    obtain rfl : i = j := by
      have := strictMono_middle.le_iff_le.mp hij
      omega
    have hodd := heven (le_antisymm hle hle')
    have hodd' := heven' (le_antisymm hle' hle)
    simp only [Nat.succ_eq_add_one] at hodd'
    omega
  rcases Nat.lt_trichotomy j k with h | h | h
  · exact absurd h (hnot hj hk hk')
  · exact h
  · exact absurd h (hnot hk hj hj')

/-- The value of a magnitude is rounded to it. -/
theorem roundsTo_sizeAt (k : Nat) : RoundsTo (sizeAt k) k where
  above j hj := by
    rw [hj]
    exact ⟨(middle_lt_sizeAt j).le, fun h => absurd h (middle_lt_sizeAt j).ne⟩
  below _ := ⟨(sizeAt_lt_middle k).le, fun h => absurd h (sizeAt_lt_middle k).ne⟩

theorem RoundsTo.le_of_sizeAt_le {v : ℚ} {j k : Nat} (h : RoundsTo v k) (hk : k < infinite)
    (hv : sizeAt j ≤ v) : j ≤ k := by
  refine Nat.not_lt.mp fun hlt => ?_
  have hle : sizeAt (k + 1) ≤ sizeAt j := strictMono_sizeAt.monotone hlt
  have hmiddle := middle_lt_sizeAt k
  have hbelow := (h.below hk).1
  linarith

theorem RoundsTo.le_of_le_sizeAt {v : ℚ} {j k : Nat} (h : RoundsTo v k) (hv : v ≤ sizeAt j) :
    k ≤ j := by
  refine Nat.not_lt.mp fun hlt => ?_
  obtain ⟨i, rfl⟩ := Nat.exists_eq_succ_of_ne_zero (Nat.ne_zero_of_lt hlt)
  have hle : sizeAt j ≤ sizeAt i := strictMono_sizeAt.monotone (by omega)
  have hmiddle := sizeAt_lt_middle i
  have habove := (h.above i rfl).1
  linarith

/-- No magnitude is nearer to a value than the one it is rounded to. -/
theorem RoundsTo.dist_le {v : ℚ} {k : Nat} (h : RoundsTo v k) (hk : k < infinite) (j : Nat) :
    |v - sizeAt k| ≤ |v - sizeAt j| := by
  have habove := (h.below hk).1
  rcases Nat.lt_trichotomy j k with hj | rfl | hj
  · obtain ⟨i, rfl⟩ := Nat.exists_eq_succ_of_ne_zero (Nat.ne_zero_of_lt hj)
    have hbelow := (h.above i rfl).1
    have hle : sizeAt j ≤ sizeAt i := strictMono_sizeAt.monotone (by omega)
    have hlt := sizeAt_lt_succ i
    rw [middle] at hbelow
    rw [Nat.succ_eq_add_one, abs_of_nonneg (show 0 ≤ v - sizeAt j by linarith), abs_le]
    constructor <;> linarith
  · exact le_rfl
  · have hle : sizeAt (k + 1) ≤ sizeAt j := strictMono_sizeAt.monotone (by omega)
    have hlt := sizeAt_lt_succ k
    rw [middle] at habove
    rw [abs_sub_comm v (sizeAt j), abs_of_nonneg (show 0 ≤ sizeAt j - v by linarith), abs_le]
    constructor <;> linarith

theorem roundsTo_zero {v : ℚ} (h : v ≤ middle 0) : RoundsTo v 0 where
  above j hj := absurd hj (Nat.succ_ne_zero j).symm
  below _ := ⟨h, fun _ => rfl⟩

/-- Whatever is not below a middle behind which all magnitudes are infinite is rounded to
infinity. -/
theorem roundsTo_infinite {v : ℚ} {k : Nat} (hk : infinite ≤ k + 1) (h : middle k ≤ v) :
    RoundsTo v infinite where
  above j hj := by
    have hle : middle j ≤ middle k := strictMono_middle.monotone (by omega)
    exact ⟨hle.trans h, fun _ => by decide⟩
  below hlt := absurd hlt (lt_irrefl _)

theorem even_add {n m : Nat} (h : m % 2 = 0) : (n * hiddenBit + m) % 2 = 0 := by
  rw [hiddenBit]
  omega

/-- A value is rounded to the significand that is nearest to it in its binade, from the start of the
binade to its end. -/
theorem roundsTo_add {v : ℚ} {n m : Nat} (hm : m ≤ 2 * hiddenBit) (h : n = 0 ∨ hiddenBit ≤ m)
    (hlow : (m - 1 / 2 : ℚ) * 2 ^ (n - 1074 : ℤ) ≤ v)
    (hhigh : v ≤ (m + 1 / 2 : ℚ) * 2 ^ (n - 1074 : ℤ))
    (htie : (m - 1 / 2 : ℚ) * 2 ^ (n - 1074 : ℤ) = v ∨ v = (m + 1 / 2 : ℚ) * 2 ^ (n - 1074 : ℤ) →
      m % 2 = 0)
    (hstart : n ≠ 0 → hiddenBit * 2 ^ (n - 1074 : ℤ) ≤ v)
    (hend : v ≤ (2 * hiddenBit : ℚ) * 2 ^ (n - 1074 : ℤ)) :
    RoundsTo v (n * hiddenBit + m) where
  above j hj := by
    by_cases hfirst : n ≠ 0 ∧ m = hiddenBit
    · -- the binade starts here
      have hlt := middle_lt_sizeAt j
      rw [← hj, sizeAt_add hm h, hfirst.2] at hlt
      have hlt' := hlt.trans_le (hstart hfirst.1)
      exact ⟨hlt'.le, fun heq => absurd heq hlt'.ne⟩
    · obtain ⟨l, rfl⟩ : ∃ l, m = l + 1 := by
        refine Nat.exists_eq_succ_of_ne_zero fun hzero => ?_
        have hpos : 0 < hiddenBit := by decide
        obtain rfl : n = 0 := h.resolve_right (by omega)
        omega
      obtain rfl : j = n * hiddenBit + l := by omega
      rw [middle_add (by omega) (by omega)]
      push_cast at hlow htie ⊢
      rw [show (l + 1 - 1 / 2 : ℚ) = l + 1 / 2 by ring] at hlow htie
      exact ⟨hlow, fun heq => even_add (htie (.inl heq))⟩
  below _ := by
    by_cases hlast : m = 2 * hiddenBit
    · -- the binade ends here
      have hlt := sizeAt_lt_middle (n * hiddenBit + m)
      rw [sizeAt_add hm h, hlast] at hlt
      push_cast at hlt
      have hlt' := hend.trans_lt hlt
      rw [hlast]
      exact ⟨hlt'.le, fun heq => absurd heq hlt'.ne⟩
    · rw [middle_add (by omega) h]
      exact ⟨hhigh, fun heq => even_add (htie (.inr heq))⟩

theorem sizeAt_zero : sizeAt 0 = 0 := by
  rw [sizeAt, if_pos (by decide), Nat.cast_zero, zero_mul]

/-- A ratio is rounded to the magnitude that is computed for it. -/
theorem roundsTo_nearestRatio (num : Nat) {den : Nat} (hden : 0 < den) :
    RoundsTo (num / den) (nearestRatio num den) := by
  unfold nearestRatio
  split_ifs with hzero
  · rw [hzero, Nat.cast_zero, zero_div, ← sizeAt_zero]
    exact roundsTo_sizeAt 0
  · dsimp only
    obtain ⟨hlow, hhigh⟩ := floorLog2_spec (Nat.pos_of_ne_zero hzero) hden
    generalize hs : max (floorLog2 num den - 52) (-1074) = s
    generalize floorLog2 num den = f at hlow hhigh hs
    obtain ⟨n, rfl⟩ : ∃ n : Nat, s = n - 1074 := ⟨(s + 1074).toNat, by omega⟩
    generalize hm : roundDiv (num * Nat.pow 2 (-(n - 1074 : ℤ)).toNat)
      (den * Nat.pow 2 (n - 1074 : ℤ).toNat) = m
    obtain ⟨hbelow, habove, htie⟩ := roundDiv_scaled_spec num hden _ hm
    generalize (num / den : ℚ) = v at hlow hhigh hbelow habove htie ⊢
    have hscale : (0 : ℚ) < 2 ^ (n - 1074 : ℤ) := by positivity
    have hstart (hn : n ≠ 0) : (hiddenBit : ℚ) * 2 ^ (n - 1074 : ℤ) ≤ v := by
      rw [show (hiddenBit : ℚ) = 2 ^ (52 : ℤ) by norm_num [hiddenBit], ← zpow_add₀ two_ne_zero]
      exact hlow.trans' (zpow_le_zpow_right₀ one_le_two (by omega))
    have hend : v ≤ (2 * hiddenBit : ℚ) * 2 ^ (n - 1074 : ℤ) := by
      rw [show (2 * hiddenBit : ℚ) = 2 ^ (53 : ℤ) by norm_num [hiddenBit], ← zpow_add₀ two_ne_zero]
      exact hhigh.le.trans (zpow_le_zpow_right₀ one_le_two (by omega))
    have hm' : m ≤ 2 * hiddenBit := by
      have hle : (m - 1 / 2 : ℚ) ≤ 2 * hiddenBit := le_of_mul_le_mul_right (hbelow.trans hend) hscale
      have hlt : (m : ℚ) < (2 * hiddenBit + 1 : Nat) := by
        push_cast
        linarith
      exact Nat.lt_succ_iff.mp (by exact_mod_cast hlt)
    have hn : n = 0 ∨ hiddenBit ≤ m := by
      refine (Nat.eq_zero_or_pos n).imp_right fun hpos => ?_
      have hle : (hiddenBit : ℚ) ≤ m + 1 / 2 :=
        le_of_mul_le_mul_right ((hstart hpos.ne').trans habove) hscale
      have hlt : (hiddenBit : ℚ) < (m + 1 : Nat) := by
        push_cast
        linarith
      exact Nat.lt_succ_iff.mp (by exact_mod_cast hlt)
    have hrounds := roundsTo_add hm' hn hbelow habove htie hstart hend
    rw [show (n - 1074 + 1074 : ℤ).toNat = n by omega]
    rcases le_total (n * hiddenBit + m) infinite with hle | hle
    · rwa [min_eq_left hle]
    · rw [min_eq_right hle]
      obtain ⟨j, hj⟩ := Nat.exists_eq_succ_of_ne_zero
        (Nat.ne_zero_of_lt ((by decide : 0 < infinite).trans_le hle))
      exact roundsTo_infinite (k := j) (by omega) (hrounds.above j hj).1

/-- A decimal is rounded to the magnitude that is computed for it. -/
theorem roundsTo_nearestMagnitude (d : Decimal) : RoundsTo d.value (nearestMagnitude d) := by
  unfold nearestMagnitude
  split_ifs with hdigits hlarge hsmall
  · rw [Decimal.value, hdigits, Nat.cast_zero, zero_mul, ← sizeAt_zero]
    exact roundsTo_sizeAt 0
  · -- at least `10 ^ 400`, where all numbers are infinite
    have hone : (1 : ℚ) ≤ d.digits := by exact_mod_cast Nat.pos_of_ne_zero hdigits
    refine roundsTo_infinite (k := infinite - 1) (by decide) ?_
    calc middle (infinite - 1) ≤ sizeAt (infinite - 1 + 1) := (middle_lt_sizeAt _).le
      _ = 2 ^ (1024 : ℤ) := sizeAt_mul_hiddenBit 2046
      _ ≤ 10 ^ d.exponent :=
        zpow_le_zpow_of_pow_le two_pos (by norm_num1) (a := 3) (b := 1) three_ne_zero (by norm_num1)
          (by decide) (by omega)
      _ ≤ d.digits * 10 ^ d.exponent := le_mul_of_one_le_left (by positivity) hone
  · -- less than `2 ^ (-1080)`, below all middles
    have hdigits' : (d.digits : ℚ) ≤ 2 ^ (d.digits.log2 + 1 : ℤ) := by
      exact_mod_cast (Nat.lt_log2_self (n := d.digits)).le
    have hpower : (10 : ℚ) ^ d.exponent ≤ 2 ^ (3 * d.exponent) := by
      rw [← inv_le_inv₀ (by positivity) (by positivity), ← zpow_neg, ← zpow_neg]
      exact zpow_le_zpow_of_pow_le two_pos (by norm_num1) (a := 3) (b := 1) three_ne_zero
        (by norm_num1) (by omega) (by push_cast; omega)
    refine roundsTo_zero ?_
    calc d.value = d.digits * 10 ^ d.exponent := rfl
      _ ≤ 2 ^ (d.digits.log2 + 1 : ℤ) * 2 ^ (3 * d.exponent) := by gcongr
      _ = 2 ^ (d.digits.log2 + 1 + 3 * d.exponent : ℤ) := (zpow_add₀ two_ne_zero _ _).symm
      _ ≤ 2 ^ (-1 + -1074 : ℤ) := zpow_le_zpow_right₀ one_le_two (by omega)
      _ = middle (0 * hiddenBit + 0) := by
        rw [middle_add (by decide) (.inl rfl), zpow_add₀ two_ne_zero]
        norm_num
  · have hpow : ((Nat.pow 10 (-d.exponent).toNat : Nat) : ℚ) ≠ 0 := by
      exact_mod_cast (Nat.pow_pos (by decide)).ne'
    have hratio : d.value = (d.digits * Nat.pow 10 d.exponent.toNat : Nat) /
        (Nat.pow 10 (-d.exponent).toNat : Nat) := by
      rw [Nat.cast_mul, natPow_toNat (by decide), mul_div_assoc, mul_div_cancel_right₀ _ hpow]
      rfl
    rw [hratio]
    exact roundsTo_nearestRatio _ (Nat.pow_pos (by decide))

theorem nearestMagnitude_le (d : Decimal) : nearestMagnitude d ≤ infinite := by
  unfold nearestMagnitude nearestRatio
  split_ifs with hdigits hlarge hsmall hzero
  · exact Nat.zero_le _
  · exact le_refl _
  · exact Nat.zero_le _
  · exact Nat.zero_le _
  · exact min_le_right _ _

theorem nearestMagnitude_lt (d : Decimal) : nearestMagnitude d < signBit :=
  lt_of_le_of_lt (nearestMagnitude_le d) (by decide)

theorem nearestMagnitude_eq {d : Decimal} {k : Nat} (h : RoundsTo d.value k) (hk : k ≤ infinite) :
    nearestMagnitude d = k :=
  (roundsTo_nearestMagnitude d).unique h (nearestMagnitude_le d) hk

theorem isFinite_nearest (negative : Bool) (d : Decimal) :
    (nearest negative d).isFinite = decide (nearestMagnitude d < infinite) := by
  rw [isFinite, nearest, magnitude_ofParts negative (nearestMagnitude_lt d)]

/-- No finite number is nearer to a value than the one it is rounded to. -/
theorem abs_sub_value_le {x : Binary64} (hfinite : x.isFinite = true) {v : ℚ} (hv : 0 ≤ v)
    (h : RoundsTo v x.magnitude) (y : Binary64) :
    |signed x.isNegative v - x.value| ≤ |signed x.isNegative v - y.value| := by
  calc |signed x.isNegative v - signed x.isNegative x.size| = |v - x.size| :=
        abs_signed_sub_signed _ _ _
    _ ≤ |v - y.size| := by
      rw [size_eq_sizeAt, size_eq_sizeAt]
      exact h.dist_le (of_decide_eq_true hfinite) y.magnitude
    _ ≤ |signed x.isNegative v - signed y.isNegative y.size| :=
      abs_sub_le_abs_signed_sub _ _ hv y.size_nonneg

end Binary64

end Workflow
