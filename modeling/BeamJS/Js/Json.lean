import BeamJS.Js.PlainData
import BeamJS.Lib.JsonText

/-!
# `JSON.stringify`

`JS_JSONStringify` with one argument, on values whose `toJSON` is no function. How the engine writes
a number in decimal is a parameter.
-/

namespace BeamJS

open Lib Utf8

/-- The decimal text of a finite number other than `-0`. It has no other characters than
`isNumberChar`, and the engine reads the number back from it. -/
structure NumberText where
  text : FiniteDouble → JsString
  injective : ∀ p q, text p = text q → p = q
  nonempty : ∀ q, text q ≠ []
  chars : ∀ q, ∀ c ∈ text q, isNumberChar c = true

/-- The double `+0`. -/
def FiniteDouble.zero : FiniteDouble := .ofInt 0 zero_natAbs_lt

/-! ## Strings -/

/-- A digit of `%x`. -/
def hexChar (n : ℕ) : UInt16 := UInt16.ofNat (if n < 10 then 48 + n else 87 + n)

/-- `snprintf(buf, sizeof(buf), "\\u%04x", c)`. -/
def unicodeEscape (c : UInt16) : JsString :=
  [92, 117, hexChar (c.toNat / 4096), hexChar (c.toNat / 256 % 16), hexChar (c.toNat / 16 % 16),
    hexChar (c.toNat % 16)]

/-- The `switch` of `JS_ToQuotedString` for a code unit that is not part of a surrogate pair. -/
def quoteUnit (c : UInt16) : JsString :=
  match c.toNat with
  | 9 => js "\\t"
  | 13 => js "\\r"
  | 10 => js "\\n"
  | 8 => js "\\b"
  | 12 => js "\\f"
  | 34 => [92, 34]
  | 92 => [92, 92]
  | n => if n < 32 || (0xd800 ≤ n && n < 0xe000) then unicodeEscape c else [c]

/-- The loop of `JS_ToQuotedString`, where `string_getc` takes a surrogate pair as one character. -/
def quoteChars : JsString → JsString
  | [] => []
  | [c] => quoteUnit c
  | c :: c1 :: s =>
    if isHigh c && isLow c1 then c :: c1 :: quoteChars s
    else quoteUnit c ++ quoteChars (c1 :: s)

/-- `JS_ToQuotedString`. -/
def toQuotedString (s : JsString) : JsString := 34 :: (quoteChars s ++ [34])

/-! ## Values -/

/-- `JS_ToString` of a number where it is finite, and else `null`. -/
def numberToStr (nt : NumberText) : Double → JsString
  | .finite q => nt.text q
  | .negZero => nt.text .zero
  | .inf _ | .nan => js "null"

/-- `js_json_check` keeps the value. -/
def JsValue.isShown : JsValue → Bool
  | .undefined | .symbol _ | .func _ => false
  | _ => true

mutual

/-- `js_json_to_str`: the text, or the message of the `TypeError`. -/
def jsonToStr (nt : NumberText) : JsValue → Except JsString JsString
  | .null => .ok (js "null")
  | .bool true => .ok (js "true")
  | .bool false => .ok (js "false")
  | .number n => .ok (numberToStr nt n.toDouble)
  | .string s => .ok (toQuotedString s)
  | .array elems =>
    match jsonElems nt elems with
    | .ok texts => .ok (91 :: (separated 44 texts ++ [93]))
    | .error message => .error message
  | .object _ props =>
    match jsonProps nt props with
    | .ok texts => .ok (123 :: (separated 44 texts ++ [125]))
    | .error message => .error message
  | .error _ _ | .promise => .ok (js "\x7b\x7d")
  | .bigint _ => .error (js "bigint are forbidden in JSON.stringify")
  | .undefined | .symbol _ | .func _ => .ok []

/-- The loop over the elements of an array. -/
def jsonElems (nt : NumberText) : List JsValue → Except JsString (List JsString)
  | [] => .ok []
  | v :: vs =>
    match if v.isShown then jsonToStr nt v else .ok (js "null") with
    | .error message => .error message
    | .ok text => (jsonElems nt vs).map (text :: ·)

/-- The loop over the properties of an object. -/
def jsonProps (nt : NumberText) :
    List (JsString × JsValue) → Except JsString (List JsString)
  | [] => .ok []
  | (k, v) :: props =>
    if v.isShown then
      match jsonToStr nt v with
      | .error message => .error message
      | .ok text => (jsonProps nt props).map ((toQuotedString k ++ 58 :: text) :: ·)
    else jsonProps nt props

end

/-- `JSON.stringify(v)`, which is `undefined` for `none`. -/
def stringify (nt : NumberText) (v : JsValue) : Except JsString (Option JsString) :=
  if v.isShown then (jsonToStr nt v).map some else .ok none

namespace JsValue

mutual

/-- Data as `isData` has it, with the infinities and NaN among the numbers. -/
def isLooseData : JsValue → Bool
  | .undefined | .null | .bool _ | .number _ | .string _ => true
  | .array elems => allLooseData elems
  | .object proto props =>
    isPlainProto proto && decide (Assoc.keys props).Nodup && allLooseProps props
  | _ => false

/-- All the elements of an array are such data. -/
def allLooseData : List JsValue → Bool
  | [] => true
  | v :: vs => isLooseData v && allLooseData vs

/-- All the properties of an object are such data. -/
def allLooseProps : List (JsString × JsValue) → Bool
  | [] => true
  | (_, v) :: props => isLooseData v && allLooseProps props

end

end JsValue

end BeamJS
