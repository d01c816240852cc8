import BeamJS.Nif.NumberRange
import BeamJS.Nif.Proofs.TermConvertProofs
import Mathlib

/-!
# Proofs: which numbers are converted

An integer keeps its value exactly when it fits an `ErlNifSInt64` and its significant bits fit a
double. A double is converted and comes back exactly when it is finite, not `-0`, and in the range
of the `long` that it is cast to first.
-/

namespace BeamJS

open JsValue

/-! ## Integers -/

/-- Rounding to 53 bits is exact exactly where there is nothing to round. -/
theorem roundMantissa_exact_iff (n : ℕ) :
    roundMantissa n * 2 ^ excess n = n ↔ n % 2 ^ excess n = 0 := by
  constructor
  · intro h
    exact Nat.mod_eq_zero_of_dvd ⟨roundMantissa n, by rw [Nat.mul_comm, h]⟩
  · intro h
    have hpos : 0 < 2 ^ excess n := by positivity
    have hq : roundMantissa n = n / 2 ^ excess n := by
      simp only [roundMantissa, h, Nat.mul_zero]
      exact if_pos (.inl hpos)
    rw [hq]
    exact Nat.div_mul_cancel (Nat.dvd_of_mod_eq_zero h)

/-- A C integer cast to a double keeps its value exactly where its mantissa fits. -/
theorem FiniteDouble.ofInt_val_iff {n : ℤ} (h : n.natAbs < 2 ^ 64) :
    (FiniteDouble.ofInt n h).val = n ↔ n.natAbs % 2 ^ excess n.natAbs = 0 := by
  rw [← roundMantissa_exact_iff]
  simp only [FiniteDouble.ofInt, Int.cast_inj]
  constructor
  · intro hval
    have habs := congrArg Int.natAbs hval
    by_cases h0 : n = 0
    · simp [h0, roundMantissa_of_lt (show 0 < 2 ^ 53 by decide)]
    · rwa [Int.natAbs_mul, Int.natAbs_sign_of_ne_zero h0, Int.natAbs_natCast, Nat.one_mul] at habs
  · intro hval
    rw [hval, Int.sign_mul_natAbs]

/-- The integers up to `2 ^ 53` are doubles. -/
theorem isExactInt64_of_le {n : ℤ} (h : n.natAbs ≤ 2 ^ 53) : isExactInt64 n = true := by
  have hmod : n.natAbs % 2 ^ excess n.natAbs = 0 := by
    rcases Nat.lt_or_ge n.natAbs (2 ^ 53) with hlt | hge
    · rw [excess_eq_zero hlt, pow_zero, Nat.mod_one]
    · rw [show n.natAbs = 2 ^ 53 by omega]
      decide
  simp only [isExactInt64, hmod, Bool.and_eq_true, decide_eq_true_eq, beq_self_eq_true, and_true]
  omega

theorem hasValue_erlIntToJs_iff (n : ℤ) : (erlIntToJs n).hasValue n ↔ isExactInt64 n = true := by
  unfold erlIntToJs
  by_cases hsmall : inInt32 n = true
  · rw [if_pos hsmall]
    have hn : (Int32.ofInt n).toInt = n := toInt_ofInt_of_inInt32 hsmall
    obtain ⟨q, hq, hval⟩ := JsNumber.toDouble_int (Int32.ofInt n)
    have habs : n.natAbs ≤ 2 ^ 53 := by
      simp only [inInt32, Bool.and_eq_true, decide_eq_true_eq] at hsmall
      omega
    exact iff_of_true ⟨q, hq, by rw [hval, hn]⟩ (isExactInt64_of_le habs)
  · rw [if_neg hsmall]
    by_cases hlong : -2 ^ 63 ≤ n ∧ n < 2 ^ 63
    · rw [dif_pos hlong]
      simp only [JsValue.hasValue, toDouble_newFloat64, Double.finite.injEq]
      rw [exists_eq_left', FiniteDouble.ofInt_val_iff]
      simp only [isExactInt64, hlong.1, hlong.2, decide_true, Bool.true_and, beq_iff_eq]
    · rw [dif_neg hlong]
      refine iff_of_false id ?_
      simp only [isExactInt64, Bool.and_eq_true, decide_eq_true_eq, beq_iff_eq]
      exact fun h => hlong h.1

/-- A number with the value of an integer converts to an Erlang number with that value. -/
theorem hasValue_jsNumberToErl {m : JsNumber} {q : FiniteDouble} {n : ℤ}
    (hm : m.toDouble = .finite q) (hq : q.val = n) :
    ∃ t, jsNumberToErl m = some t ∧ t.hasValue n := by
  cases m with
  | int i =>
    refine ⟨_, rfl, ?_⟩
    obtain ⟨p, hp, hval⟩ := JsNumber.toDouble_int i
    rw [hp, Double.finite.injEq] at hm
    rw [hm, hq] at hval
    exact_mod_cast hval.symm
  | float d =>
    cases hm
    by_cases h : isWholeInt32 q = true
    · exact ⟨.int (truncate q), if_pos h, truncate_of_val hq⟩
    · exact ⟨.float ⟨.finite q, rfl⟩, if_neg h, q, rfl, hq⟩

/-- An integer keeps its value exactly when it is an `ErlNifSInt64` with at most 53 significant
bits. -/
theorem int_kept_iff (ord : MapOrder) (n : ℤ) : IntKept ord n ↔ isExactInt64 n = true := by
  rw [← hasValue_erlIntToJs_iff]
  refine ⟨fun h => h.1, fun h => ⟨h, fun _ => ?_⟩⟩
  cases hv : erlIntToJs n with
  | number m =>
    rw [hv] at h
    obtain ⟨q, hm, hq⟩ := h
    exact hasValue_jsNumberToErl hm hq
  | bigint i =>
    unfold erlIntToJs at hv
    split_ifs at hv
  | _ =>
    rw [hv] at h
    exact h.elim

/-- `2 ^ 53 + 1` is rounded and `2 ^ 63` becomes `null`. -/
theorem large_ints_lost :
    ((erlIntToJs (2 ^ 53 + 1)).hasValue (2 ^ 53) ∧ ¬ IntKept .insertion (2 ^ 53 + 1)) ∧
    (erlIntToJs (2 ^ 63) = .null ∧ ¬ IntKept .insertion (2 ^ 63)) := by
  have hlost : ∀ n, isExactInt64 n = false → ¬ IntKept .insertion n := by
    intro n hn h
    rw [(hasValue_erlIntToJs_iff n).mp h.1] at hn
    cases hn
  refine ⟨⟨?_, hlost _ (by decide)⟩, rfl, hlost _ (by decide)⟩
  exact ⟨_, toDouble_newFloat64 _, by decide⟩

/-! ## Doubles -/

/-- A whole double in the range of `int` is cast to it without overflow. -/
theorem castDefined_of_reachesInt {d : Double} (h : reachesInt d = true) :
    castDefined 32 d = true := by
  cases d with
  | finite q =>
    have hrange : inInt32 (truncate q) = true := (Bool.and_eq_true_iff.mp h).2
    simp only [inInt32, Bool.and_eq_true, decide_eq_true_eq] at hrange
    simp only [castDefined, inCInt, Bool.and_eq_true, decide_eq_true_eq]
    omega
  | negZero => decide
  | inf _ | nan => cases h

theorem castsDefined_float (longBits : ℕ) (d : Double) :
    castsDefined longBits (.float d) = castDefined longBits d := by
  have h : (!reachesInt d || castDefined 32 d) = true := by
    cases hr : reachesInt d with
    | false => rfl
    | true => simp [castDefined_of_reachesInt hr]
  rw [castsDefined, h, Bool.and_true]

/-- A JavaScript number is converted without an undefined cast, and comes back, exactly when it is
finite, not `-0`, and a `long` can hold what is left of it without its fractional part. -/
theorem number_converts_iff (ord : MapOrder) (known : Atoms) (longBits : ℕ) (n : JsNumber) :
    NumberConverts ord known longBits n ↔ fitsLong longBits n = true := by
  have hplain : isPlainNumber n = true → ∃ t m, jsValueToErl ord (.number n) = some t ∧
      erlTermToJs known t = (.number m, known) ∧ m.toDouble = n.toDouble := by
    intro hn
    obtain ⟨t, m, ht, hm, hval⟩ := jsNumberToErl_plain hn
    exact ⟨t, m, ht, hm known, hval⟩
  cases n with
  | int i => exact iff_of_true ⟨rfl, hplain rfl⟩ rfl
  | float d =>
    rw [NumberConverts, castsDefined_float]
    cases d with
    | finite q => exact ⟨fun h => h.1, fun h => ⟨h, hplain rfl⟩⟩
    | negZero =>
      refine iff_of_false ?_ Bool.false_ne_true
      rintro ⟨_, t, m, ht, hm, hval⟩
      cases ht
      rw [erlTermToJs] at hm
      cases hm
      cases hval
    | inf _ | nan =>
      refine iff_of_false ?_ Bool.false_ne_true
      rintro ⟨hcast, _⟩
      cases hcast

/-- `NaN` is cast to a `long` and rejected by `enif_make_double`, `2 ^ 63` is cast out of range, and
`-0` comes back as `0`. -/
theorem doubles_not_converted :
    (jsNumberToErl (.float .nan) = none ∧ ¬ NumberConverts .insertion [] 64 (.float .nan)) ∧
    ¬ NumberConverts .insertion [] 64 (.float (.finite ⟨2 ^ 63, 1, 63, by norm_num⟩)) ∧
    (erlTermToJs [] (.int 0) = (.number (.int 0), []) ∧
      ¬ NumberConverts .insertion [] 64 (.float .negZero)) := by
  refine ⟨⟨rfl, ?_⟩, ?_, rfl, ?_⟩
  · rintro ⟨hcast, _⟩
    cases hcast
  · rintro ⟨hcast, _⟩
    revert hcast
    decide
  · rintro ⟨_, t, m, ht, hm, hval⟩
    cases ht
    cases hm
    cases hval

end BeamJS
