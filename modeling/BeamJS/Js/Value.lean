import BeamJS.Js.JsString
import BeamJS.Js.Number
import BeamJS.Lib.Assoc

/-!
# JavaScript values

The values that JavaScript code hands to the C and Elixir code. An object lists its own enumerable
string properties in the order in which they are enumerated. Values are trees: sharing and the
identity of objects play no part in what is modelled over them.
-/

namespace BeamJS

open Lib

/-- A JavaScript value. -/
inductive JsValue where
  | undefined
  | null
  | bool (b : Bool)
  | number (n : JsNumber)
  | bigint (n : ℤ)
  | string (s : JsString)
  | symbol (id : ℕ)
  /-- A function without own enumerable properties. -/
  | func (id : ℕ)
  /-- An `Error`, with what `ToString` makes of its `message` and `stack`, `none` where it throws.
  -/
  | error (message stack : Option JsString)
  | promise
  /-- A dense array. -/
  | array (elems : List JsValue)
  /-- An object with its own properties. Its prototype is `Object.prototype` for `none` and absent
  for `some null`. -/
  | object (proto : Option JsValue) (props : List (JsString × JsValue))

instance : Inhabited JsValue := ⟨.undefined⟩

namespace JsValue

/-- `{}`. -/
def emptyObject : JsValue := .object none []

/-- `JS_IsObject`. -/
def isObject : JsValue → Bool
  | .func _ | .error _ _ | .promise | .array _ | .object _ _ => true
  | _ => false

/-- The prototype object of a built-in class. -/
inductive Builtin where
  | object | function | error | promise | array

/-- The properties of the built-in prototypes, those they inherit included. -/
abbrev Builtins := Builtin → JsString → Option JsValue

/-- The built-in prototypes as far as the names `__beamjs_type` and `__beamjs_data` are concerned,
which none of them has. -/
def noBuiltins : Builtins := fun _ _ => none

end JsValue

/-- `c - '0'` for a digit. -/
def digit? (c : UInt16) : Option ℕ :=
  if 48 ≤ c.toNat ∧ c.toNat ≤ 57 then some (c.toNat - 48) else none

/-- The number a string of digits stands for. -/
def decimal? (s : JsString) : Option ℕ :=
  s.foldl (fun acc c => do return 10 * (← acc) + (← digit? c)) (some 0)

/-- `JS_AtomIsArrayIndex`: the canonical decimal numbers below `2 ^ 32 - 1`. -/
def arrayIndex? (s : JsString) : Option ℕ :=
  if s = [] ∨ (s.head? = some 48 ∧ s ≠ [48]) then none
  else (decimal? s).filter (· < 2 ^ 32 - 1)

/-- The entry `e` is enumerated before a new property of index `i`. -/
def indexBefore (i : ℕ) (e : JsString × JsValue) : Bool :=
  match arrayIndex? e.1 with
  | some j => j < i
  | none => false

/-- Add a property. The array indices come first, in ascending order, then the other names in the
order of their creation. -/
def insertProp (k : JsString) (v : JsValue) (props : List (JsString × JsValue)) :
    List (JsString × JsValue) :=
  match arrayIndex? k with
  | some i => props.takeWhile (indexBefore i) ++ (k, v) :: props.dropWhile (indexBefore i)
  | none => props ++ [(k, v)]

/-- Define an own property. -/
def defineProp (k : JsString) (v : JsValue) (props : List (JsString × JsValue)) :
    List (JsString × JsValue) :=
  if k ∈ Assoc.keys props then Assoc.replace k v props else insertProp k v props

namespace JsValue

/-- `JS_GetProperty`: the own property `k`, or the one inherited along the prototypes. -/
def getProp? (builtins : Builtins) (k : JsString) : JsValue → Option JsValue
  | .func _ => builtins .function k
  | .error _ _ => builtins .error k
  | .promise => builtins .promise k
  | .array elems =>
    match arrayIndex? k with
    | some i => if h : i < elems.length then some elems[i] else builtins .array k
    | none =>
      if k = js "length" then some (.number (.int (Int32.ofNat elems.length)))
      else builtins .array k
  | .object proto props =>
    match props.lookup k with
    | some v => some v
    | none =>
      match proto with
      | none => builtins .object k
      | some p => getProp? builtins k p
  | _ => none

/-- `JS_GetPropertyStr` for a name in ASCII. -/
def getProp (builtins : Builtins) (k : JsString) (v : JsValue) : JsValue :=
  (getProp? builtins k v).getD .undefined

/-- As a prototype, the value leads up to `Object.prototype` and its `__proto__` accessor without an
own property of that name on the way. -/
def leadsToAccessor : JsValue → Bool
  | .func _ | .error _ _ | .promise | .array _ => true
  | .object proto props =>
    if js "__proto__" ∈ Assoc.keys props then false
    else
      match proto with
      | none => true
      | some p => leadsToAccessor p
  | _ => false

/-- The setter of `Object.prototype.__proto__` on the object with prototype `proto` and properties
`props`. -/
def setProto (v : JsValue) (proto : Option JsValue) (props : List (JsString × JsValue)) : JsValue :=
  match v with
  | .null => .object (some .null) props
  | v => if v.isObject then .object (some v) props else .object proto props

/-- `JS_SetProperty` on an object: it overwrites an own property, runs the inherited `__proto__`
setter, or adds a property. -/
def setProp (obj : JsValue) (k : JsString) (v : JsValue) : JsValue :=
  match obj with
  | .object proto props =>
    if k ∈ Assoc.keys props then .object proto (Assoc.replace k v props)
    else if k = js "__proto__" ∧ (.object proto [] : JsValue).leadsToAccessor then
      setProto v proto props
    else .object proto (insertProp k v props)
  | obj => obj

end JsValue

end BeamJS
