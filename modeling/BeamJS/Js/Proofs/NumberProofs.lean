import BeamJS.Js.Number

/-!
# Proofs: numbers keep their value

A small integer is a double, and `JS_NewFloat64` changes how a number is stored but not the number.
-/

namespace BeamJS

theorem excess_eq_zero {n : ℕ} (h : n < 2 ^ 53) : excess n = 0 := by
  unfold excess
  by_cases h0 : n = 0
  · simp [h0]
  · have := (Nat.log2_lt h0).mpr h
    omega

theorem roundMantissa_of_lt {n : ℕ} (h : n < 2 ^ 53) : roundMantissa n = n := by
  simp only [roundMantissa, excess_eq_zero h, pow_zero, Nat.div_one, Nat.mod_one]
  exact if_pos (.inl (by decide))

/-- Below `2 ^ 53` the conversion to a double is exact. -/
theorem FiniteDouble.ofInt_val {n : ℤ} (h : n.natAbs < 2 ^ 64) (hn : n.natAbs < 2 ^ 53) :
    (FiniteDouble.ofInt n h).val = n := by
  simp only [FiniteDouble.ofInt, roundMantissa_of_lt hn, excess_eq_zero hn, pow_zero, mul_one]
  rw [Int.sign_mul_natAbs]

theorem JsNumber.toDouble_int (i : Int32) :
    ∃ q : FiniteDouble, (JsNumber.int i).toDouble = .finite q ∧ q.val = i.toInt := by
  refine ⟨_, rfl, FiniteDouble.ofInt_val _ ?_⟩
  have h1 := i.toInt_lt
  have h2 := i.le_toInt
  omega

theorem truncate_of_val {q : FiniteDouble} {n : ℤ} (h : q.val = n) : truncate q = n := by
  rw [truncate, h]
  simp

theorem inInt32_toInt (i : Int32) : inInt32 i.toInt = true := by
  have h1 := i.toInt_lt
  have h2 := i.le_toInt
  simp only [inInt32, Bool.and_eq_true, decide_eq_true_eq]
  omega

theorem toInt_ofInt_of_inInt32 {n : ℤ} (h : inInt32 n = true) : (Int32.ofInt n).toInt = n := by
  simp only [inInt32, Bool.and_eq_true, decide_eq_true_eq] at h
  exact Int32.toInt_ofInt_of_le (by omega) (by omega)

/-- The double of an `int32` is whole and in range. -/
theorem isWholeInt32_of_val {q : FiniteDouble} {i : Int32} (h : q.val = i.toInt) :
    isWholeInt32 q = true := by
  rw [isWholeInt32, truncate_of_val h, h, inInt32_toInt]
  simp

/-- `JS_NewFloat64` keeps the number. -/
theorem toDouble_newFloat64 (d : Double) : (newFloat64 d).toDouble = d := by
  cases d with
  | finite q =>
    by_cases h : isWholeInt32 q = true
    · obtain ⟨hval, hrange⟩ : q.val = truncate q ∧ inInt32 (truncate q) = true := by
        simpa [isWholeInt32] using h
      obtain ⟨p, hp, hpval⟩ := JsNumber.toDouble_int (Int32.ofInt (truncate q))
      rw [newFloat64, if_pos h, hp]
      refine congrArg Double.finite (FiniteDouble.ext ?_)
      rw [hpval, toInt_ofInt_of_inInt32 hrange, hval]
    · rw [newFloat64, if_neg h]
      rfl
  | negZero => rfl
  | inf _ => rfl
  | nan => rfl

end BeamJS
