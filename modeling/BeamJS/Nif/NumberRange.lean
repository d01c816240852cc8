import BeamJS.Nif.TermConvert

/-!
# The range of numbers

What the number branches of the two conversions do at the ends of their ranges: the casts of a
double to a C integer that they evaluate, and the integers whose value survives.
-/

namespace BeamJS

/-! ## Integers -/

/-- The mathematical value of a JavaScript Number or BigInt is `n`. -/
def JsValue.hasValue (n : ℤ) : JsValue → Prop
  | .number m => ∃ q : FiniteDouble, m.toDouble = .finite q ∧ q.val = n
  | .bigint i => i = n
  | _ => False

/-- An Erlang number equal to `n`. -/
def Term.hasValue (n : ℤ) : Term → Prop
  | .int i => i = n
  | .float d => ∃ q : FiniteDouble, d.1 = .finite q ∧ q.val = n
  | _ => False

/-- The integer `n` keeps its value in JavaScript, and as far as all integers are doubles it is a
number equal to `n` on its way back. -/
def IntKept (ord : MapOrder) (n : ℤ) : Prop :=
  (erlIntToJs n).hasValue n ∧
    (n.natAbs ≤ 2 ^ 53 → ∃ t, jsValueToErl ord (erlIntToJs n) = some t ∧ t.hasValue n)

/-- An `ErlNifSInt64` with no more than 53 significant bits. -/
def isExactInt64 (n : ℤ) : Bool :=
  -2 ^ 63 ≤ n && n < 2 ^ 63 && n.natAbs % 2 ^ excess n.natAbs == 0

/-! ## Casts -/

/-- The range of a signed C integer of `bits` bits. -/
def inCInt (bits : ℕ) (n : ℤ) : Bool := -2 ^ (bits - 1) ≤ n && n < 2 ^ (bits - 1)

/-- The cast of `d` to a signed C integer of `bits` bits is defined: what is left of `d` without its
fractional part is in the range of the type. -/
def castDefined (bits : ℕ) : Double → Bool
  | .finite q => inCInt bits (truncate q)
  | .negZero => inCInt bits 0
  | .inf _ | .nan => false

/-- `d == (double)(long)d && d >= -2147483648.0 && d <= 2147483647.0`, after which `d` is cast to
`int`. -/
def reachesInt : Double → Bool
  | .finite q => isWholeInt32 q
  | .negZero => true
  | .inf _ | .nan => false

/-- The casts that `js_value_to_erl` evaluates for a number: `(long)d` in the test that is made of
every double, and `(int)d` where the test succeeds. -/
def castsDefined (longBits : ℕ) : JsNumber → Bool
  | .int _ => true
  | .float d => castDefined longBits d && (!reachesInt d || castDefined 32 d)

/-- The number converts without an undefined cast to a valid term, from which it comes back. -/
def NumberConverts (ord : MapOrder) (known : Atoms) (longBits : ℕ) (n : JsNumber) : Prop :=
  castsDefined longBits n = true ∧
    ∃ t m, jsValueToErl ord (.number n) = some t ∧ erlTermToJs known t = (.number m, known) ∧
      m.toDouble = n.toDouble

/-- A finite number other than `-0` that a `long` can hold up to its fractional part. What is stored
as an `int32` is never cast. -/
def fitsLong (longBits : ℕ) : JsNumber → Bool
  | .int _ => true
  | .float (.finite q) => inCInt longBits (truncate q)
  | .float .negZero | .float (.inf _) | .float .nan => false

end BeamJS
