import BeamJS.Js.Value

/-!
# `beamjs:match`

`match.js`: `matchPattern`, the loop over the clauses, and the pattern language they implement. The
predicates, guards and handlers of a clause are functions on JavaScript values. A pattern is told
apart by its `__type`, so an object that carries the `__type` of a marker is that marker.
-/

namespace BeamJS

open Lib

namespace JsValue

/-- `ToBoolean`. -/
def truthy : JsValue → Bool
  | .undefined | .null => false
  | .bool b => b
  | .number n => n.toDouble != .finite (.ofInt 0 zero_natAbs_lt) && n.toDouble != .negZero &&
      n.toDouble != .nan
  | .bigint n => n != 0
  | .string s => !s.isEmpty
  | _ => true

/-- `===` on doubles. -/
def numberEq : Double → Double → Bool
  | .nan, _ | _, .nan => false
  | .negZero, .finite q | .finite q, .negZero => q.val == 0
  | m, n => m == n

/-- `v === p` for a `p` that is a primitive or a function. -/
def strictEq : JsValue → JsValue → Bool
  | .undefined, .undefined | .null, .null => true
  | .bool a, .bool b => a == b
  | .number m, .number n => numberEq m.toDouble n.toDouble
  | .bigint m, .bigint n => m == n
  | .string s, .string t => s == t
  | .symbol i, .symbol j => i == j
  | .func i, .func j => i == j
  | _, _ => false

/-- `typeof v === "object" && v !== null`. -/
def typeofObject : JsValue → Bool
  | .error _ _ | .promise | .array _ | .object _ _ => true
  | _ => false

/-- `Symbol.for("beamjs:wildcard")`. -/
def wildcardSymbol : JsValue := .symbol 0

/-- `Symbol.for("beamjs:rest")`. -/
def restSymbol : JsValue := .symbol 1

end JsValue

open JsValue

/-- The parts of the JavaScript environment that the matching of a value reads. -/
structure Realm where
  builtins : Builtins
  /-- What the accessor `__proto__` gives for a value. -/
  prototype : JsValue → JsValue
  /-- `${JSON.stringify(value)}`. -/
  stringify : JsValue → JsString

/-- `value[key]` where `key in value`, and `none` elsewhere. -/
def Realm.get? (realm : Realm) (key : JsString) (value : JsValue) : Option JsValue :=
  if key = js "__proto__" ∧ value.leadsToAccessor then some (realm.prototype value)
  else value.getProp? realm.builtins key

/-- A pattern. -/
inductive Pattern where
  /-- `_`. -/
  | wildcard
  /-- `REST`. -/
  | rest
  | bind (name : JsString)
  /-- `guard(predicate)`, where the function `predicate` has the identity `id`. -/
  | guard (id : ℕ) (predicate : JsValue → JsValue)
  /-- A primitive other than the two symbols, or a function. -/
  | prim (v : JsValue)
  | array (elems : List Pattern)
  /-- An object with its own enumerable properties. -/
  | object (props : List (JsString × Pattern))

/-! ## `match.js` -/

/-- The bind right after `REST` takes what is left of the array. -/
def restBindings (after : List Pattern) (left : List JsValue) : List (JsString × JsValue) :=
  match after with
  | .bind name :: _ => [(name, .array left)]
  | _ => []

section Match

variable (realm : Realm)

mutual

/-- `matchPattern` of `match.js`: its result and the bindings afterwards. -/
def matchPattern (pattern : Pattern) (value bindings : JsValue) : Bool × JsValue :=
  match pattern with
  | .wildcard => (true, bindings)
  | .bind name => (true, bindings.setProp name value)
  | .guard _ predicate => ((predicate value).truthy, bindings)
  | .rest => (value.strictEq restSymbol, bindings)
  | .prim v => (value.strictEq v, bindings)
  | .array elems =>
    match value with
    | .array vs => matchElems elems vs bindings
    | _ => (false, bindings)
  | .object props => if value.typeofObject then matchProps props value bindings else (false, bindings)

/-- The loop over an array pattern, with the elements that are left of both arrays. -/
def matchElems (elems : List Pattern) (vs : List JsValue) (bindings : JsValue) : Bool × JsValue :=
  match elems, vs with
  | [], vs => (vs.isEmpty, bindings)
  | .rest :: elems, vs =>
    match restBindings elems vs with
    | (name, left) :: _ => (true, bindings.setProp name left)
    | [] => (true, bindings)
  | _ :: _, [] => (false, bindings)
  | p :: elems, v :: vs =>
    match matchPattern p v bindings with
    | (true, bindings) => matchElems elems vs bindings
    | (false, bindings) => (false, bindings)

/-- The loop over `Object.keys(pattern)`. -/
def matchProps (props : List (JsString × Pattern)) (value bindings : JsValue) : Bool × JsValue :=
  match props with
  | [] => (true, bindings)
  | (key, p) :: props =>
    match realm.get? key value with
    | none => (false, bindings)
    | some v =>
      match matchPattern p v bindings with
      | (true, bindings) => matchProps props value bindings
      | (false, bindings) => (false, bindings)

end

/-- `when(pattern, handler, guardFn)`. -/
structure Clause where
  pattern : Pattern
  handler : JsValue → JsValue
  guardFn : Option (JsValue → JsValue)

/-- `!clause.guardFn || clause.guardFn(bindings)`. -/
def Clause.accepts (c : Clause) (bindings : JsValue) : Bool :=
  match c.guardFn with
  | none => true
  | some guardFn => (guardFn bindings).truthy

/-- The handlers that are called, each with the place of its clause and its argument, and the end: a
value or the message of the `Error` thrown. -/
structure MatchRun where
  calls : List (ℕ × JsValue)
  result : Except JsString JsValue

/-- The loop over the clauses from the place `i` on, for a copy `test` of `matchPattern`. -/
def clauseLoop (test : Pattern → JsValue → JsValue → Bool × JsValue) (message : JsString)
    (value : JsValue) : ℕ → List Clause → MatchRun
  | _, [] => ⟨[], .error (message ++ realm.stringify value)⟩
  | i, clause :: clauses =>
    match test clause.pattern value emptyObject with
    | (true, bindings) =>
      if clause.accepts bindings then ⟨[(i, bindings)], .ok (clause.handler bindings)⟩
      else clauseLoop test message value (i + 1) clauses
    | (false, _) => clauseLoop test message value (i + 1) clauses

/-- `match(value, clauses)`. -/
def matchClauses (value : JsValue) (clauses : List Clause) : MatchRun :=
  clauseLoop realm (matchPattern realm) (js "No matching clause for: ") value 0 clauses

/-! ## The pattern language -/

mutual

/-- The value matches the pattern and gives it these bindings, from left to right. -/
inductive Matches : JsValue → Pattern → List (JsString × JsValue) → Prop
  | wildcard (v : JsValue) : Matches v .wildcard []
  | bind (v : JsValue) (name : JsString) : Matches v (.bind name) [(name, v)]
  | guard {v : JsValue} (id : ℕ) {f : JsValue → JsValue} (h : (f v).truthy = true) :
      Matches v (.guard id f) []
  | prim {v p : JsValue} (h : v.strictEq p = true) : Matches v (.prim p) []
  | restSymbol {v : JsValue} (h : v.strictEq restSymbol = true) : Matches v .rest []
  | array {vs : List JsValue} {elems : List Pattern} {bs : List (JsString × JsValue)}
      (hrest : ∀ p ∈ elems, p ≠ .rest) (h : ElemsMatch vs elems bs) :
      Matches (.array vs) (.array elems) bs
  | arrayRest {front left : List JsValue} {elems after : List Pattern}
      {bs : List (JsString × JsValue)} (hrest : ∀ p ∈ elems, p ≠ .rest)
      (h : ElemsMatch front elems bs) :
      Matches (.array (front ++ left)) (.array (elems ++ .rest :: after))
        (bs ++ restBindings after left)
  | object {v : JsValue} {props : List (JsString × Pattern)} {bs : List (JsString × JsValue)}
      (hv : v.typeofObject = true) (h : PropsMatch v props bs) : Matches v (.object props) bs

/-- Values match as many patterns, one by one. -/
inductive ElemsMatch : List JsValue → List Pattern → List (JsString × JsValue) → Prop
  | nil : ElemsMatch [] [] []
  | cons {v : JsValue} {vs : List JsValue} {p : Pattern} {elems : List Pattern}
      {bs cs : List (JsString × JsValue)} (h : Matches v p bs) (hs : ElemsMatch vs elems cs) :
      ElemsMatch (v :: vs) (p :: elems) (bs ++ cs)

/-- The value has every property of the pattern, with matching values. -/
inductive PropsMatch : JsValue → List (JsString × Pattern) → List (JsString × JsValue) → Prop
  | nil (v : JsValue) : PropsMatch v [] []
  | cons {v w : JsValue} {key : JsString} {p : Pattern} {props : List (JsString × Pattern)}
      {bs cs : List (JsString × JsValue)} (hget : realm.get? key v = some w) (h : Matches w p bs)
      (hs : PropsMatch v props cs) : PropsMatch v ((key, p) :: props) (bs ++ cs)

end

/-- The object with these bindings as its properties. -/
def bindingsObject (bs : List (JsString × JsValue)) : JsValue :=
  .object none (bs.foldl (fun props b => defineProp b.1 b.2 props) [])

/-- `{}` after an assignment for each binding. -/
def assigned (bs : List (JsString × JsValue)) : JsValue :=
  bs.foldl (fun obj b => obj.setProp b.1 b.2) emptyObject

/-- The clause `c` at the place `i` is the first one whose pattern the value matches and whose guard
accepts the bindings. -/
structure Selects (value : JsValue) (clauses : List Clause) (i : ℕ) (c : Clause)
    (bs : List (JsString × JsValue)) : Prop where
  at_place : clauses[i]? = some c
  pattern : Matches realm value c.pattern bs
  guard : c.accepts (bindingsObject bs) = true
  first : ∀ j c' bs', j < i → clauses[j]? = some c' → Matches realm value c'.pattern bs' →
    c'.accepts (bindingsObject bs') = false

/-- The run calls the handler of the clause selected, and no other one, with the bindings as an
object, and ends as it does. Where no clause is selected it calls none and throws. -/
def FollowsSelection (value : JsValue) (clauses : List Clause) (run : MatchRun) : Prop :=
  (∀ i c bs, Selects realm value clauses i c bs →
    run = ⟨[(i, bindingsObject bs)], .ok (c.handler (bindingsObject bs))⟩) ∧
  ((∀ i c bs, ¬ Selects realm value clauses i c bs) →
    run = ⟨[], .error (js "No matching clause for: " ++ realm.stringify value)⟩)

/-- Up to the clause that is taken, no pattern that the value matches binds `__proto__`, unless the
guard accepts neither the object with the bindings nor what assigning them to `{}` makes. -/
inductive ProtoFree (value : JsValue) : List Clause → Prop
  | nil : ProtoFree value []
  | taken {c : Clause} {clauses : List Clause} {bs : List (JsString × JsValue)}
      (h : Matches realm value c.pattern bs) (hguard : c.accepts (bindingsObject bs) = true)
      (hproto : js "__proto__" ∉ Assoc.keys bs) : ProtoFree value (c :: clauses)
  | passed {c : Clause} {clauses : List Clause}
      (h : ∀ bs, Matches realm value c.pattern bs →
        c.accepts (bindingsObject bs) = false ∧ c.accepts (assigned bs) = false)
      (hs : ProtoFree value clauses) : ProtoFree value (c :: clauses)

end Match

end BeamJS
