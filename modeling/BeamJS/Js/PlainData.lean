import BeamJS.Js.Value

/-!
# Plain data and deep equality

The values that messages are meant to carry, and when two of them are deep-equal: the same shape,
the same keys whatever their order, and equal leaves, with `-0` told apart from `+0`.
-/

namespace BeamJS

open Lib

namespace JsValue

mutual

/-- Deep equality. -/
def deepEq : JsValue → JsValue → Bool
  | .undefined, .undefined => true
  | .null, .null => true
  | .bool a, .bool b => a == b
  | .number m, .number n => m.toDouble == n.toDouble
  | .bigint m, .bigint n => m == n
  | .string s, .string t => s == t
  | .array xs, .array ys => deepEqList xs ys
  | .object _ ps, .object _ qs => ps.length == qs.length && deepEqProps ps qs
  | _, _ => false

/-- The elements of two arrays, in order. -/
def deepEqList : List JsValue → List JsValue → Bool
  | [], [] => true
  | x :: xs, y :: ys => deepEq x y && deepEqList xs ys
  | _, _ => false

/-- Every property of the first list is one of the second. -/
def deepEqProps : List (JsString × JsValue) → List (JsString × JsValue) → Bool
  | [], _ => true
  | (k, v) :: ps, qs =>
    (match qs.lookup k with
      | some w => deepEq v w
      | none => false) && deepEqProps ps qs

end

/-- A finite number other than `-0`. -/
def isPlainNumber (n : JsNumber) : Bool := n.toDouble.isFinite && n.toDouble != .negZero

/-- The prototype of an object literal or of `Object.create(null)`. -/
def isPlainProto : Option JsValue → Bool
  | none | some .null => true
  | _ => false

/-- The `__beamjs_type` of the object reads `pid` up to a NUL. -/
def isPidHandle (props : List (JsString × JsValue)) : Bool :=
  match props.lookup (js "__beamjs_type") with
  | some (.string s) => cString (toCStringLen s) = bytes "pid"
  | _ => false

mutual

/-- Plain data: built from undefined, null, booleans, finite numbers other than `-0`, strings,
arrays and objects that are no pid handles. -/
def isPlainData : JsValue → Bool
  | .undefined | .null | .bool _ | .string _ => true
  | .number n => isPlainNumber n
  | .array elems => allPlainData elems
  | .object proto props =>
    isPlainProto proto && decide (Assoc.keys props).Nodup && !isPidHandle props &&
      allPlainProps props
  | _ => false

/-- All the elements of an array are plain data. -/
def allPlainData : List JsValue → Bool
  | [] => true
  | v :: vs => isPlainData v && allPlainData vs

/-- All the properties of an object are plain data. -/
def allPlainProps : List (JsString × JsValue) → Bool
  | [] => true
  | (_, v) :: props => isPlainData v && allPlainProps props

end

mutual

/-- Data: as plain data, with `-0` and pid handles among it. -/
def isData : JsValue → Bool
  | .undefined | .null | .bool _ | .string _ => true
  | .number n => n.toDouble.isFinite
  | .array elems => allData elems
  | .object proto props =>
    isPlainProto proto && decide (Assoc.keys props).Nodup && allDataProps props
  | _ => false

/-- All the elements of an array are data. -/
def allData : List JsValue → Bool
  | [] => true
  | v :: vs => isData v && allData vs

/-- All the properties of an object are data. -/
def allDataProps : List (JsString × JsValue) → Bool
  | [] => true
  | (_, v) :: props => isData v && allDataProps props

end

/-- Induction over a value with its elements, properties and prototype. -/
@[elab_as_elim]
theorem induction_on {P : JsValue → Prop} (undefined : P .undefined) (null : P .null)
    (bool : ∀ b, P (.bool b)) (number : ∀ n, P (.number n)) (bigint : ∀ n, P (.bigint n))
    (string : ∀ s, P (.string s)) (symbol : ∀ i, P (.symbol i)) (func : ∀ i, P (.func i))
    (error : ∀ m s, P (.error m s)) (promise : P .promise)
    (array : ∀ elems, (∀ v ∈ elems, P v) → P (.array elems))
    (object : ∀ proto props, (∀ p ∈ proto, P p) → (∀ e ∈ props, P e.2) → P (.object proto props))
    (v : JsValue) : P v := by
  refine @JsValue.rec P (fun vs => ∀ v ∈ vs, P v) (fun p => ∀ v ∈ p, P v) (fun ps => ∀ e ∈ ps, P e.2)
    (fun e => P e.2) undefined null bool number bigint string symbol func error promise
    array object ?_ ?_ ?_ ?_ ?_ ?_ ?_ v
  · simp
  · intro v vs hv hvs
    simpa using ⟨hv, hvs⟩
  · simp
  · intro v hv
    simpa using hv
  · simp
  · intro e es he hes
    simpa using ⟨he, fun a b hab => hes (a, b) hab⟩
  · intro k v hv
    exact hv

end JsValue

end BeamJS
