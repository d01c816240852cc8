import BeamJS.Erl.TermEq
import BeamJS.Nif.Transport

/-!
# Maps on their way into a context and back

`set_global` converts a term and stores it as a property of the global object, `get_global` reads
the property and converts it back. `KeepsMap` says which maps come back as they were: every name of
theirs makes a property of its own, their binaries are texts, and none of them reads as a pid
handle.
-/

namespace BeamJS

open Lib JsValue

/-! ## The global object -/

/-- A context: the atoms of its runtime, and the prototype and the writable properties of its global
object. -/
structure GlobalScope where
  known : Atoms
  proto : Option JsValue
  props : List (JsString × JsValue)

namespace GlobalScope

/-- The properties that `js_global_funcs` defines with `prop_flags` 0, which cannot be written. -/
def constants : List (JsString × JsValue) :=
  [(js "Infinity", .number (.float (.inf false))), (js "NaN", .number (.float .nan)),
    (js "undefined", .undefined)]

/-- `Object.prototype`, which has no enumerable properties. -/
def objectPrototype : JsValue := .object (some .null) []

/-- `JS_GetPropertyStr` on the global object. -/
def getProp (builtins : Builtins) (scope : GlobalScope) (key : JsString) : JsValue :=
  match constants.lookup key with
  | some v => v
  | none =>
    if key = js "__proto__" ∧ key ∉ Assoc.keys scope.props ∧
        (JsValue.object scope.proto []).leadsToAccessor then
      -- the getter of `Object.prototype.__proto__`
      scope.proto.getD objectPrototype
    else JsValue.getProp builtins key (.object scope.proto scope.props)

/-- `JS_SetPropertyStr` on the global object. It throws for a constant. -/
def setProp (scope : GlobalScope) (key : JsString) (v : JsValue) : GlobalScope :=
  if key ∈ Assoc.keys constants then scope
  else
    match JsValue.setProp (.object scope.proto scope.props) key v with
    | .object proto props => { scope with proto, props }
    | _ => scope

end GlobalScope

/-- `nif_set_global`. The term is converted before the atom of the name is made, and what
`JS_SetPropertyStr` returns is not looked at. -/
def setGlobal (scope : GlobalScope) (name : Bytes) (t : Term) : GlobalScope :=
  let (v, known) := erlTermToJs scope.known t
  let (key, known) := newAtomLen known (cString name)
  { scope with known }.setProp key v

/-- `nif_get_global`, or `none` where the conversion raises `badarg`. -/
def getGlobal (ord : MapOrder) (builtins : Builtins) (scope : GlobalScope)
    (name : Bytes) : Option Term := do
  let t ← jsValueToErl ord (scope.getProp builtins (newAtomLen scope.known (cString name)).1)
  return .tuple [.ok, t]

/-! ## Maps that travel -/

mutual

/-- The data in question: 32-bit integers, booleans, `nil`, binaries, and maps of such data under
distinct UTF-8 binaries. -/
def isMapData : Term → Bool
  | .int n => inInt32 n
  | .atom name => name == "true" || name == "false" || name == "nil"
  | .binary _ => true
  | .map entries => decide (Assoc.keys entries).Nodup && allMapData entries
  | _ => false

/-- The entries of a map have UTF-8 binaries as keys and hold such data. -/
def allMapData : List (Term × Term) → Bool
  | [] => true
  | (.binary b, t) :: es => isUtf8 b && isMapData t && allMapData es
  | _ :: _ => false

end

/-- The map comes back as it was: from the two conversions, and as the value of the global variable
that it is stored in. -/
structure MapKept (ord : MapOrder) (builtins : Builtins) (scope : GlobalScope) (name : Bytes)
    (m : Term) :
    Prop where
  /-- `js_value_to_erl(erl_term_to_js(m)) = m`. -/
  trip : ∃ t, jsValueToErl ord (erlTermToJs scope.known m).1 = some t ∧ Term.equal t m = true
  /-- `get_global` after `set_global` returns the map. -/
  global : ∃ t, getGlobal ord builtins (setGlobal scope name m) name = some (.tuple [.ok, t]) ∧
    Term.equal t m = true

/-! ## What survives -/

/-- The loop of `isText`. `high` says that the code point before was a high surrogate. -/
def textLoop : ℕ → Bool → Bytes → Bool
  | _, _, [] => true
  | 0, _, _ :: _ => false
  | fuel + 1, high, b :: p =>
    match Utf8.unicodeFromUtf8 (b :: p) with
    | some (c, rest) =>
      c ≤ 0x10ffff && !(high && (0xdc00 ≤ c && c < 0xe000)) &&
        textLoop fuel (0xd800 ≤ c && c < 0xdc00) rest
    | none => false

/-- The bytes are UTF-8 in which surrogates may stand, but not a pair of them. -/
def isText (b : Bytes) : Bool := textLoop b.length false b

/-- The entries have the mark of a pid handle. -/
def isPidMap (entries : List (Term × Term)) : Bool :=
  match entries.lookup (.binary (bytes "__beamjs_type")) with
  | some (.binary b) => cString b == bytes "pid"
  | _ => false

mutual

/-- Every binary value in the term is a text, and no map in it has the mark of a pid handle. -/
def keepsValues : Term → Bool
  | .binary b => isText b
  | .map entries => !isPidMap entries && allKeepValues entries
  | _ => true

/-- So it is for the values of the entries. -/
def allKeepValues : List (Term × Term) → Bool
  | [] => true
  | (_, t) :: es => keepsValues t && allKeepValues es

end

mutual

/-- The names of the properties that the maps in the term stand for, in the order in which they are
read. -/
def termNames : Term → List JsString
  | .map entries => entryNames entries
  | _ => []

/-- The names in the entries: those of a value, and then the key. -/
def entryNames : List (Term × Term) → List JsString
  | [] => []
  | (.binary b, t) :: es => termNames t ++ newStringLen b :: entryNames es
  | _ :: es => entryNames es

end

/-- The map is kept by a context that stores it under `name`. -/
structure KeepsMap (scope : GlobalScope) (name : Bytes) (m : Term) : Prop where
  /-- Every name is read as itself and makes a property of its own. -/
  names : NamesKept scope.known (termNames m)
  /-- The binaries are texts, and no map is taken for a pid handle. -/
  values : keepsValues m = true
  /-- The variable can be written. -/
  writable : latin1 (cString name) ∉ Assoc.keys GlobalScope.constants

end BeamJS
