import BeamJS.Js.PlainData
import BeamJS.Nif.TermConvert

/-!
# The arguments of `init`

`start_gen_server` writes the arguments of a GenServer into its program as JSON: they are converted
to a term, encoded by `Jason.encode!`, and the JSON text is evaluated as a JavaScript expression. A
JSON text stands here for the document that it writes.
-/

namespace BeamJS

open Lib

/-- A JSON document with the text of its strings in UTF-8. -/
inductive Json where
  | null
  | bool (b : Bool)
  | int (n : ℤ)
  | float (d : ErlFloat)
  | string (s : Bytes)
  | array (elems : List Json)
  | object (members : List (Bytes × Json))

/-! ## UTF-8 -/

/-- Every surrogate of the string is one of a pair. -/
def isWellFormed : JsString → Bool
  | [] => true
  | [c] => !Utf8.isHigh c && !Utf8.isLow c
  | c :: c1 :: s =>
    if Utf8.isHigh c && Utf8.isLow c1 then isWellFormed s
    else !Utf8.isHigh c && !Utf8.isLow c && isWellFormed (c1 :: s)

/-- The name of an atom in UTF-8. -/
def atomUtf8 (name : String) : Bytes := name.toList.flatMap fun c => Utf8.unicodeToUtf8 c.toNat

/-! ## `Jason.encode!` -/

/-- A string, or `none` where Jason raises for bytes that are not UTF-8. -/
def jasonString (b : Bytes) : Option Bytes := if isUtf8 b then some b else none

/-- The text of a key, which is a binary in every map that JavaScript sends. -/
def jasonKey : Term → Option Bytes
  | .binary b => jasonString b
  | .atom name => some (atomUtf8 name)
  | _ => none

mutual

/-- `Jason.encode!`, or `none` where it raises. -/
def jasonEncode : Term → Option Json
  | .int n => some (.int n)
  | .float d => some (.float d)
  | .atom name =>
    if name = "nil" then some .null
    else if name = "true" then some (.bool true)
    else if name = "false" then some (.bool false)
    else some (.string (atomUtf8 name))
  | .binary b => (jasonString b).map .string
  | .list elems => (jasonElems elems).map .array
  | .map entries => (jasonMembers entries).map .object
  | .tuple _ | .pid _ | .ref _ | .other => none

/-- The elements of a list. -/
def jasonElems : List Term → Option (List Json)
  | [] => some []
  | t :: ts => do
    let j ← jasonEncode t
    let js ← jasonElems ts
    return j :: js

/-- The entries of a map. -/
def jasonMembers : List (Term × Term) → Option (List (Bytes × Json))
  | [] => some []
  | (k, t) :: es => do
    let name ← jasonKey k
    let j ← jasonEncode t
    let js ← jasonMembers es
    return (name, j) :: js

end

/-! ## JSON as JavaScript -/

/-- `m * 2 ^ k` with its sign, for a mantissa of 53 bits or one more than the greatest. -/
def FiniteDouble.ofMantissa (s : ℤ) (hs : s.natAbs ≤ 1) (m k : ℕ)
    (h : (k ≤ 970 ∧ m ≤ 2 ^ 53) ∨ (k ≤ 971 ∧ m < 2 ^ 53)) : FiniteDouble where
  val := ((s * (m * 2 ^ k : ℕ) : ℤ) : ℚ)
  isDouble := by
    by_cases hm : m < 2 ^ 53
    · refine ⟨s * m, k, ?_, by omega, by omega, ?_⟩
      · rw [Int.natAbs_mul, Int.natAbs_natCast]
        have := Nat.mul_le_mul_right m hs
        omega
      · push_cast
        rw [zpow_natCast, mul_assoc]
    · obtain rfl : m = 2 ^ 53 := by omega
      refine ⟨s * 2 ^ 52, k + 1, ?_, by omega, by omega, ?_⟩
      · rw [Int.natAbs_mul]
        have := Nat.mul_le_mul_right ((2 : ℤ) ^ 52).natAbs hs
        norm_num at this ⊢
        omega
      · push_cast
        rw [zpow_add_one₀ (by norm_num), zpow_natCast]
        ring

theorem natAbs_sign_le_one (n : ℤ) : n.sign.natAbs ≤ 1 := by
  rw [Int.natAbs_sign]
  split <;> decide

/-- The Number nearest to an integer. -/
def Double.ofInt (n : ℤ) : Double :=
  if h : (excess n.natAbs ≤ 970 ∧ roundMantissa n.natAbs ≤ 2 ^ 53) ∨
      (excess n.natAbs ≤ 971 ∧ roundMantissa n.natAbs < 2 ^ 53) then
    .finite (.ofMantissa n.sign (natAbs_sign_le_one n) _ _ h)
  else .inf (n < 0)

namespace Json

mutual

/-- The value of the JSON text as a JavaScript expression. -/
def literal : Json → JsValue
  | .null => .null
  | .bool b => .bool b
  | .int n => .number (newFloat64 (.ofInt n))
  | .float d => .number (newFloat64 d.1)
  | .string s => .string (newStringLen s)
  | .array elems => .array (literalElems elems)
  | .object members => literalMembers .emptyObject members

/-- The elements of an array literal. -/
def literalElems : List Json → List JsValue
  | [] => []
  | j :: js => j.literal :: literalElems js

/-- The properties of an object literal. The name `__proto__` defines no property: its value becomes
the prototype if it is an object or `null`. -/
def literalMembers (obj : JsValue) : List (Bytes × Json) → JsValue
  | [] => obj
  | (name, j) :: members =>
    let v := j.literal
    match obj with
    | .object proto props =>
      if newStringLen name = js "__proto__" then
        literalMembers (JsValue.setProto v proto props) members
      else literalMembers (.object proto (defineProp (newStringLen name) v props)) members
    | obj => obj

end

end Json

/-- What `init` is called with for the arguments `args` of `start_gen_server`, if its program is
built. -/
def initArg (ord : MapOrder) (args : JsValue) : Option JsValue := do
  let t ← jsValueToErl ord args
  return (← jasonEncode t).literal

/-- The program is built and `init` receives arguments deep-equal to those of the start. -/
def InitReceives (ord : MapOrder) (args : JsValue) : Prop :=
  ∃ v, initArg ord args = some v ∧ JsValue.deepEq v args = true

/-! ## What survives -/

/-- A name of a property that is kept: no NUL, no lone surrogate, not `__proto__`. -/
def isJsonName (k : JsString) : Bool := !k.contains 0 && isWellFormed k && k != js "__proto__"

namespace JsValue

mutual

/-- Data that JSON can express and the conversion leaves alone: no `undefined`, no `-0`, no lone
surrogates, no pid handles, and names that are kept. -/
def isJsonData : JsValue → Bool
  | .null | .bool _ => true
  | .number n => n.toDouble != .negZero
  | .string s => isWellFormed s
  | .array elems => allJsonData elems
  | .object _ props => !isPidHandle props && allJsonProps props
  | _ => false

/-- All the elements of an array are such data. -/
def allJsonData : List JsValue → Bool
  | [] => true
  | v :: vs => isJsonData v && allJsonData vs

/-- All the properties of an object are such data under names that are kept. -/
def allJsonProps : List (JsString × JsValue) → Bool
  | [] => true
  | (k, v) :: props => isJsonName k && isJsonData v && allJsonProps props

end

end JsValue

end BeamJS
