import BeamJS.Js.Value
import BeamJS.Erl.Term

/-!
# `term_convert.c`

The two conversions between Erlang terms and JavaScript values. `erlTermToJs` passes the table of
the atoms that the receiving runtime knows, since `JS_NewAtomLen` looks the name of a property up
there and creates it where it is missing.
-/

namespace BeamJS

open Lib

/-- The names in the atom table of a runtime. -/
abbrev Atoms := List JsString

/-- `is_digit(*str)`. -/
def startsWithDigit : Bytes → Bool
  | [] => false
  | b :: _ => 48 ≤ b.toNat && b.toNat ≤ 57

/-- `JS_NewAtomLen`: the name of a property and the table afterwards. A buffer that does not start
with a digit is first looked up in the table, where its bytes are compared with Latin-1 strings. -/
def newAtomLen (known : Atoms) (buf : Bytes) : JsString × Atoms :=
  if !startsWithDigit buf && known.contains (latin1 buf) then (latin1 buf, known)
  else (newStringLen buf, newStringLen buf :: known)

/-! ## `erl_term_to_js` -/

/-- The integer branches: `int`, `long` or `ErlNifSInt64`. A larger integer reaches the fallback. -/
def erlIntToJs (n : ℤ) : JsValue :=
  if inInt32 n then .number (.int (Int32.ofInt n))
  else if h : -2 ^ 63 ≤ n ∧ n < 2 ^ 63 then .number (newFloat64 (.finite (.ofInt n (by omega))))
  else .null

/-- The atom branch. `strcmp` compares up to a NUL. -/
def erlAtomToJs (name : String) : JsValue :=
  match Term.atomLatin1 name with
  | some buf =>
    if cString buf = bytes "true" then .bool true
    else if cString buf = bytes "false" then .bool false
    else if cString buf = bytes "nil" ∨ cString buf = bytes "null" then .null
    else if cString buf = bytes "undefined" then .undefined
    else .string (newStringLen buf)
  | none => .null

/-- The name of a property for a key of a map. Keys other than binaries and atoms are passed over.
-/
def erlKeyToBuf : Term → Option Bytes
  | .binary b => some b
  | .atom name => (Term.atomLatin1 name).map cString
  | _ => none

mutual

/-- `erl_term_to_js`. -/
def erlTermToJs (known : Atoms) : Term → JsValue × Atoms
  | .int n => (erlIntToJs n, known)
  | .float d => (.number (newFloat64 d.1), known)
  | .atom name => (erlAtomToJs name, known)
  | .binary b => (.string (newStringLen b), known)
  | .tuple elems =>
    let (vs, known) := erlTermsToJs known elems
    (.array vs, known)
  | .list elems =>
    -- an iolist is taken for a string before the list branch is reached
    match Term.iolistBytes elems with
    | some b => (.string (newStringLen b), known)
    | none =>
      let (vs, known) := erlTermsToJs known elems
      (.array vs, known)
  | .map entries => erlEntriesToJs known .emptyObject entries
  | .pid _ | .ref _ | .other => (.null, known)

/-- The elements of a tuple or a list. -/
def erlTermsToJs (known : Atoms) : List Term → List JsValue × Atoms
  | [] => ([], known)
  | t :: ts =>
    let (v, known) := erlTermToJs known t
    let (vs, known) := erlTermsToJs known ts
    (v :: vs, known)

/-- The loop over the entries of a map. -/
def erlEntriesToJs (known : Atoms) (obj : JsValue) : List (Term × Term) → JsValue × Atoms
  | [] => (obj, known)
  | (k, t) :: es =>
    match erlKeyToBuf k with
    | some buf =>
      let (v, known) := erlTermToJs known t
      let (name, known) := newAtomLen known buf
      erlEntriesToJs known (obj.setProp name v) es
    | none => erlEntriesToJs known obj es

end

/-! ## `js_value_to_erl` -/

/-- The number branches. `enif_make_double` raises `badarg` for a double that is not finite. -/
def jsNumberToErl : JsNumber → Option Term
  | .int i => some (.int i.toInt)
  | .float (.finite q) =>
    if isWholeInt32 q then some (.int (truncate q)) else some (.float ⟨.finite q, rfl⟩)
  | .float .negZero => some (.int 0)
  | .float (.inf _) | .float .nan => none

/-- The name under which a property enters a map: `strlen` cuts it at a NUL. -/
def mapKey (k : JsString) : Bytes := cString (toCStringLen k)

/-- The map branch: one `enif_make_map_put` for each property. -/
def jsPropsToMap (ord : MapOrder) (props : List (JsString × Option Term)) : Option Term := do
  let es ← props.mapM fun e => e.2.map fun t => (mapKey e.1, t)
  return ord.toMap (Assoc.putAll [] es)

/-- `strcmp(type_str, "pid") == 0` for the `__beamjs_type` of an object. -/
def isPidTag : JsValue → Bool
  | .string s => cString (toCStringLen s) = bytes "pid"
  | _ => false

mutual

/-- `js_value_to_erl`, or `none` where it raises `badarg`. -/
def jsValueToErl (ord : MapOrder) : JsValue → Option Term
  | .undefined => some (.atom "undefined")
  | .null => some .null
  | .bool b => some (.ofBool b)
  | .number n => jsNumberToErl n
  | .string s => some (.binary (toCStringLen s))
  | .array elems => (jsValuesToErl ord elems).map .list
  | .object proto props =>
    if isPidTag ((JsValue.object proto props).getProp JsValue.noBuiltins (js "__beamjs_type")) then
      -- the handle is replaced by its `__beamjs_data`
      ((jsPropsToErl ord props).lookup (js "__beamjs_data")).getD (jsProtoDataToErl ord proto)
    else jsPropsToMap ord (jsPropsToErl ord props)
  | .func _ | .error _ _ | .promise => jsPropsToMap ord []
  | .bigint _ | .symbol _ => some (.atom "undefined")

/-- The elements of an array. -/
def jsValuesToErl (ord : MapOrder) : List JsValue → Option (List Term)
  | [] => some []
  | v :: vs => do
    let t ← jsValueToErl ord v
    let ts ← jsValuesToErl ord vs
    return t :: ts

/-- What each property of an object converts to. -/
def jsPropsToErl (ord : MapOrder) : List (JsString × JsValue) → List (JsString × Option Term)
  | [] => []
  | (k, v) :: props => (k, jsValueToErl ord v) :: jsPropsToErl ord props

/-- The conversion of the `__beamjs_data` that an object inherits from its prototype. -/
def jsProtoDataToErl (ord : MapOrder) : Option JsValue → Option Term
  | none => some (.atom "undefined")
  | some p => jsDataToErl ord p

/-- The conversion of the `__beamjs_data` found from a prototype on. -/
def jsDataToErl (ord : MapOrder) : JsValue → Option Term
  | .object proto props =>
    ((jsPropsToErl ord props).lookup (js "__beamjs_data")).getD (jsProtoDataToErl ord proto)
  | _ => some (.atom "undefined")

end

/-! ## `js_exception_to_erl` -/

/-- The binary of a `message` or `stack` up to a NUL, empty where `ToString` threw. -/
def errorText (s : Option JsString) : Term := .binary (s.elim [] fun s => cString (toCStringLen s))

/-- `js_exception_to_erl` for the pending exception. -/
def jsExceptionToErl (ord : MapOrder) (exc : JsValue) : Option Term := do
  let reason ← match exc with
    | .error message stack =>
      some (.tuple [.atom "js_exception", errorText message, errorText stack])
    | v => jsValueToErl ord v
  return .tuple [.atom "error", reason]

end BeamJS
