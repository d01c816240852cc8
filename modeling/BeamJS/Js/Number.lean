import Mathlib.Data.Nat.Log
import Mathlib.Algebra.Order.Field.Rat
import Mathlib.Tactic.Linarith
import Mathlib.Tactic.Ring

/-!
# Numbers

Doubles are exact dyadic rationals next to the negative zero, the infinities and NaN. A JavaScript
number is stored either as an `int32` (`JS_TAG_INT`) or as a double (`JS_TAG_FLOAT64`).
-/

namespace BeamJS

/-- A finite double other than `-0`: a rational `m * 2 ^ e` with a mantissa of 53 bits. -/
structure FiniteDouble where
  /-- The number itself. -/
  val : ℚ
  /-- It is the value of a double. -/
  isDouble : ∃ m e : ℤ, m.natAbs < 2 ^ 53 ∧ -1074 ≤ e ∧ e ≤ 971 ∧ val = m * 2 ^ e

@[ext] theorem FiniteDouble.ext {p q : FiniteDouble} (h : p.val = q.val) : p = q := by
  cases p
  cases q
  cases h
  rfl

instance : DecidableEq FiniteDouble := fun p q =>
  decidable_of_iff (p.val = q.val) ⟨FiniteDouble.ext, fun h => h ▸ rfl⟩

/-- An IEEE 754 double. -/
inductive Double where
  /-- A finite double, `+0` included. -/
  | finite (q : FiniteDouble)
  | negZero
  | inf (negative : Bool)
  | nan
  deriving DecidableEq

/-- Neither an infinity nor NaN. -/
def Double.isFinite : Double → Bool
  | .finite _ => true
  | .negZero => true
  | _ => false

/-- The binary exponent that leaves a mantissa of at most 53 bits. -/
def excess (n : ℕ) : ℕ := Nat.log2 n - 52

/-- The mantissa of `n` rounded to 53 bits, to nearest and ties to even. -/
def roundMantissa (n : ℕ) : ℕ :=
  let k := excess n
  let q := n / 2 ^ k
  let r := n % 2 ^ k
  if 2 * r < 2 ^ k ∨ (2 * r = 2 ^ k ∧ q % 2 = 0) then q else q + 1

theorem roundMantissa_le (n : ℕ) : roundMantissa n ≤ 2 ^ 53 := by
  have hq : n / 2 ^ excess n < 2 ^ 53 := by
    rw [Nat.div_lt_iff_lt_mul (by positivity), ← Nat.pow_add]
    refine lt_of_lt_of_le (Nat.lt_log2_self (n := n)) (Nat.pow_le_pow_right (by decide) ?_)
    unfold excess
    omega
  unfold roundMantissa
  simp only []
  split_ifs <;> omega

theorem zero_natAbs_lt : (0 : ℤ).natAbs < 2 ^ 64 := by decide

/-- `(double)n` for a C integer. -/
def FiniteDouble.ofInt (n : ℤ) (h : n.natAbs < 2 ^ 64) : FiniteDouble where
  val := ((n.sign * (roundMantissa n.natAbs * 2 ^ excess n.natAbs : ℕ) : ℤ) : ℚ)
  isDouble := by
    have hm := roundMantissa_le n.natAbs
    have hk : excess n.natAbs ≤ 11 := by
      have hlog : Nat.log2 n.natAbs < 64 := by
        by_cases h0 : n.natAbs = 0
        · simp [h0]
        · exact (Nat.log2_lt h0).mpr h
      unfold excess
      omega
    have hs : n.sign.natAbs ≤ 1 := by
      rcases lt_trichotomy n 0 with hn | hn | hn
      · simp [Int.sign_eq_neg_one_of_neg hn]
      · simp [hn]
      · simp [Int.sign_eq_one_of_pos hn]
    rcases Nat.lt_or_ge (roundMantissa n.natAbs) (2 ^ 53) with hlt | hge
    · refine ⟨n.sign * roundMantissa n.natAbs, excess n.natAbs, ?_, by omega, by omega, ?_⟩
      · rw [Int.natAbs_mul, Int.natAbs_natCast]
        have := Nat.mul_le_mul_right (roundMantissa n.natAbs) hs
        omega
      · push_cast
        rw [zpow_natCast, mul_assoc]
    · have heq : roundMantissa n.natAbs = 2 ^ 53 := le_antisymm hm hge
      refine ⟨n.sign * 2 ^ 52, excess n.natAbs + 1, ?_, by omega, by omega, ?_⟩
      · rw [Int.natAbs_mul]
        have := Nat.mul_le_mul_right ((2 : ℤ) ^ 52).natAbs hs
        norm_num at this ⊢
        omega
      · rw [heq]
        push_cast
        rw [zpow_add_one₀ (by norm_num), zpow_natCast]
        ring

/-- A JavaScript number as the engine stores it. -/
inductive JsNumber where
  /-- `JS_TAG_INT`. -/
  | int (i : Int32)
  /-- `JS_TAG_FLOAT64`. -/
  | float (d : Double)
  deriving DecidableEq

theorem int32_natAbs_lt (i : Int32) : i.toInt.natAbs < 2 ^ 64 := by
  have h1 := i.toInt_lt
  have h2 := i.le_toInt
  omega

/-- The double a number stands for. -/
def JsNumber.toDouble : JsNumber → Double
  | .int i => .finite (.ofInt i.toInt (int32_natAbs_lt i))
  | .float d => d

/-- `(long)d` for a finite `d`: truncation towards zero. -/
def truncate (q : FiniteDouble) : ℤ := q.val.num.tdiv q.val.den

/-- `-2147483648 <= n <= 2147483647`. -/
def inInt32 (n : ℤ) : Bool := -2147483648 ≤ n && n ≤ 2147483647

/-- `d == (double)(long)d && d >= -2147483648.0 && d <= 2147483647.0` for a finite `d`. Where the
cast to `long` is out of range it is undefined, and the two comparisons reject `d` whatever it gave.
-/
def isWholeInt32 (q : FiniteDouble) : Bool :=
  q.val == (truncate q : ℚ) && inInt32 (truncate q)

/-- `JS_NewFloat64`: a whole double in the range of `int32`, other than `-0`, is stored as an
integer. -/
def newFloat64 : Double → JsNumber
  | .finite q => if isWholeInt32 q then .int (Int32.ofInt (truncate q)) else .float (.finite q)
  | d => .float d

end BeamJS
