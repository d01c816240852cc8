import BeamJS.Nif.Eval
import BeamJS.Lib.Recursion

/-!
# `js_value_to_erl` on the heap

The conversion as the C code runs it, over the object graph of a context. Objects may share parts
and reach themselves, and every call takes a frame of the C stack, of which there are `depth`.
-/

namespace BeamJS

/-- A JavaScript value in a heap of `n` objects. -/
inductive HeapValue (n : ℕ) where
  | undefined
  | null
  | bool (b : Bool)
  | number (k : JsNumber)
  | bigint (k : ℤ)
  | string (s : JsString)
  | symbol (id : ℕ)
  | object (a : Fin n)

/-- An own property with a string name that is no accessor. -/
structure HeapProp (n : ℕ) where
  name : JsString
  value : HeapValue n
  enumerable : Bool

/-- An object that is no proxy. -/
structure HeapObject (n : ℕ) where
  /-- For an array, what its indices below `length` read. -/
  elems : Option (List (HeapValue n))
  /-- The prototype, `none` for no prototype or a built-in one. -/
  proto : Option (Fin n)
  props : List (HeapProp n)

/-- The objects of a context. -/
abbrev Heap (n : ℕ) := Fin n → HeapObject n

namespace Heap

variable {n : ℕ} (h : Heap n)

/-- `JS_GetProperty` on a chain of at most `len` objects. -/
def getPropChain (k : JsString) : ℕ → Fin n → HeapValue n
  | 0, _ => .undefined
  | len + 1, a =>
    match (h a).props.find? fun p => p.name = k with
    | some p => p.value
    | none => (h a).proto.elim .undefined (getPropChain k len)

/-- `JS_GetPropertyStr`. `JS_SetPrototype` refuses a cycle, so that no chain has an object twice. -/
def getProp (a : Fin n) (k : JsString) : HeapValue n := h.getPropChain k n a

/-- `JS_GetOwnPropertyNames` with `JS_GPN_STRING_MASK | JS_GPN_ENUM_ONLY`. -/
def ownProps (a : Fin n) : List (HeapProp n) := (h a).props.filter (·.enumerable)

/-- The object counts as a serialised pid. -/
def isPid (a : Fin n) : Bool :=
  match h.getProp a (js "__beamjs_type") with
  | .string s => isPidTag (.string s)
  | _ => false

end Heap

/-- A term, or the `badarg` of a part that raised. -/
def NifResult.ofTerm? : Option Term → NifResult
  | some t => .returns t
  | none => .raises

/-- The results of a loop of calls, `none` where one of them crashes. A call that raises does not
end the loop. -/
def collectResults : List NifResult → Option (List (Option Term))
  | [] => some []
  | r :: rs =>
    match r with
    | .returns t => (collectResults rs).map (some t :: ·)
    | .raises => (collectResults rs).map (none :: ·)
    | .crashes => none

/-- What is made of the results of a loop of calls. -/
def afterLoop (rs : List NifResult) (make : List (Option Term) → Option Term) : NifResult :=
  match collectResults rs with
  | some ts => .ofTerm? (make ts)
  | none => .crashes

section Convert

variable (ord : MapOrder) {n : ℕ} (h : Heap n)

/-- The body of `js_value_to_erl`, where `call` is its recursive call. -/
def heapValueBody (call : HeapValue n → NifResult) : HeapValue n → NifResult
  | .undefined => .returns (.atom "undefined")
  | .null => .returns .null
  | .bool b => .returns (.ofBool b)
  | .number k => .ofTerm? (jsNumberToErl k)
  | .string s => .returns (.binary (toCStringLen s))
  | .bigint _ | .symbol _ => .returns (.atom "undefined")
  | .object a =>
    match (h a).elems with
    | some vs => afterLoop (vs.map call) fun ts => (ts.mapM id).map .list
    | none =>
      if h.isPid a then call (h.getProp a (js "__beamjs_data"))
      else
        afterLoop ((h.ownProps a).map fun p => call p.value) fun ts =>
          jsPropsToMap ord (((h.ownProps a).map HeapProp.name).zip ts)

/-- `js_value_to_erl` on a C stack of `depth` frames. A call that finds no frame takes the virtual
machine down. -/
def heapValueToErl : ℕ → HeapValue n → NifResult
  | 0, _ => .crashes
  | depth + 1, v => heapValueBody ord h (heapValueToErl depth) v

/-- The conversion returns or raises, and recurses no deeper than `bound`. -/
def ConvertsWithin (bound : ℕ) (v : HeapValue n) : Prop :=
  ∃ result, result ≠ .crashes ∧ ∀ depth, bound < depth → heapValueToErl ord h depth v = result

end Convert

namespace Heap

variable {n : ℕ} (h : Heap n)

/-- The values that the conversion of a value goes on to: the elements of an array, the
`__beamjs_data` of a pid, or else the own enumerable properties. -/
def goesOnTo : HeapValue n → List (HeapValue n)
  | .object a =>
    match (h a).elems with
    | some vs => vs
    | none =>
      if h.isPid a then [h.getProp a (js "__beamjs_data")]
      else (h.ownProps a).map HeapProp.value
  | _ => []

/-- From the value the conversion comes to an object that contains itself. -/
def Cyclic (v : HeapValue n) : Prop := Lib.ReachesCycle (fun v w => w ∈ h.goesOnTo v) v

end Heap

end BeamJS
